import TinyOS.CC.Invariant

/-! The steps of cv_wait keep the invariant of the condition variables. -/
namespace TinyOS.CC
open RList Ring
variable {τ κ μ : Type*} [DecidableEq τ] [DecidableEq κ] [DecidableEq μ]
variable {s : State τ κ μ} {L : CondVar κ → List WaiterRef} {t : τ}

theorem Waits.goto (h : Waits s L) {s' : State τ κ μ} {p : Pc κ μ} (hm : Moves s s' t p)
    (hlocks : Locks s'.pc s'.held) (hok : ThreadOk s' L t p) (hpc : ∀ q f, s.pc t≠.wait q f)
    (hwake : ∀ w g, s.pc t≠.signal (.wake w) g ∧ s.pc t≠.signal (.mark w) g) : Waits s' L :=
  h.moves hm hlocks hok hwake (fun q f hq => absurd hq (hpc q f)) fun f hq => absurd hq (hpc _ f)

theorem waitLock_waits (h : Waits s L) {f : Wait κ μ} (hpc : s.pc t = .wait .lock f)
    (hfree : s.held (.waitset f.cv) = none) :
    Waits ((s.mutexLock t (.waitset f.cv)).goto t (.wait .push f)) L := by
  obtain ⟨r,hr,hrt,hok,hm,hnew⟩ := hpc ▸ h.thread t
  refine h.moves (p := .wait .push f) ⟨rfl,rfl,rfl,rfl,rfl,rfl,rfl,fun _ _ => rfl,fun _ _ => rfl⟩ ?_
    ⟨r,hr,hrt,hok,hm,fun _ _ => hnew rfl (by simp)⟩ (by simp [hpc]) ?_ (by simp [hpc])
  · refine h.locks.acquire hfree fun y hy => ?_
    cases y with
    | waitset c => simp [hpc, Pc.locks, WaitPc.locksWaitset, eq_comm]
    | mutex m => simp [hpc, Pc.locks, WaitPc.locksMutex]
  · intro q f' hq
    cases hpc.symm.trans hq
    exact ⟨.push,rfl⟩

theorem waitUnlock_waits (h : Waits s L) {f : Wait κ μ} (hpc : s.pc t = .wait .unlock f) :
    Waits ((s.mutexUnlock (.mutex f.mutex)).goto t (.wait .sleep f)) L := by
  obtain ⟨r,hr,hrt,hok,hm,-⟩ := hpc ▸ h.thread t
  refine h.moves (p := .wait .sleep f)
    ⟨rfl,rfl,rfl,rfl,rfl,rfl,rfl,fun _ _ => rfl,fun _ _ => rfl⟩ ?_
    ⟨r,hr,hrt,hok,hm,by simp [WaitPc.locksMutex]⟩ (by simp [hpc]) ?_ (by simp [hpc])
  · refine h.locks.release (fun _ => by simp [hpc, Pc.locks, WaitPc.locksMutex]) fun y hy => ?_
    cases y with
    | waitset c => simp [hpc, Pc.locks, WaitPc.locksWaitset]
    | mutex m => simp [hpc, Pc.locks, WaitPc.locksMutex, eq_comm]
  · intro q f' hq
    cases hpc.symm.trans hq
    exact ⟨.sleep,rfl⟩

theorem waitSleep_waits (h : Waits s L) {f : Wait κ μ} (hpc : s.pc t = .wait .sleep f) :
    Waits ((sleepReleasing s t (.waitset f.cv) f.timed).goto t (.wait .asleep f)) L := by
  obtain ⟨r,hr,hrt,⟨-,hrem,hsig⟩,hm,-⟩ := hpc ▸ h.thread t
  refine h.moves (p := .wait .asleep f) ⟨rfl,rfl,rfl,rfl,rfl,rfl,rfl,?_,?_⟩ ?_
    ⟨r,hr,hrt,Or.inl ⟨hsig,Or.inl ?_,by simp [hrem]⟩,hm,by simp [WaitPc.locksMutex]⟩
    (by simp [hpc]) ?_ (by simp [hpc])
  · intro u hu
    simp [sleepReleasing, State.goto, hu]
  · intro u hu
    simp [sleepReleasing, State.goto, hu]
  · refine h.locks.release (fun _ => by simp [hpc, Pc.locks, WaitPc.locksWaitset]) fun y hy => ?_
    cases y with
    | waitset c => simp [hpc, Pc.locks, WaitPc.locksWaitset, eq_comm]
    | mutex m => simp [hpc, Pc.locks, WaitPc.locksMutex]
  · simp [sleepReleasing, State.goto]
  · intro q f' hq
    cases hpc.symm.trans hq
    exact ⟨.asleep,rfl⟩

omit [DecidableEq τ] in
theorem Waits.marking_locks (h : Waits s L) {f : Wait κ μ} (hpc : s.pc t = .wait .asleep f)
    (hk : Marking s f.waiter) : s.held (.waitset f.cv)≠none := by
  obtain ⟨u,g,hu⟩ := hk
  obtain ⟨r,hr,hrt,-⟩ := hpc ▸ h.thread t
  obtain ⟨-,-,r',⟨⟨f',hf',hfw,hcv⟩,hr',-⟩,-⟩ := hu ▸ h.thread u
  have hrr : r' = r := Option.some.inj (hr'.symm.trans hr)
  have hff : f' = f := by
    rw [hrr, hrt, hpc] at hf'
    cases hf'
    rfl
  intro hn
  have := h.locks.not_locks rfl hn u
  rw [← hff, hcv, hu] at this
  simp [Pc.locks, SignalPc.locksWaitset] at this

theorem waitAsleep_waits (h : Waits s L) {f : Wait κ μ} (hpc : s.pc t = .wait .asleep f)
    (hst : s.stopped t = false) (hfree : s.held (.waitset f.cv) = none) :
    Waits ((s.mutexLock t (.waitset f.cv)).goto t (.wait .tidy f)) L := by
  obtain ⟨r,hr,hrt,hok,hm,-⟩ := hpc ▸ h.thread t
  have hset : Settled s t f.cv r := by
    rcases hok with ⟨hsig,hun,-⟩ | ⟨-,-,-,-,hk⟩ | ⟨-,hset⟩
    · cases hun with
      | inl hun => simp [hst] at hun
      | inr hun => exact ⟨hst,Or.inr ⟨hsig,hun.2⟩⟩
    · exact absurd hfree (h.marking_locks hpc hk)
    · exact hset
  refine h.moves (p := .wait .tidy f) ⟨rfl,rfl,rfl,rfl,rfl,rfl,rfl,fun _ _ => rfl,fun _ _ => rfl⟩ ?_
    ⟨r,hr,hrt,hset,hm,by simp [WaitPc.locksMutex]⟩ (by simp [hpc]) ?_ ?_
  · refine h.locks.acquire hfree fun y hy => ?_
    cases y with
    | waitset c => simp [hpc, Pc.locks, WaitPc.locksWaitset, eq_comm]
    | mutex m => simp [hpc, Pc.locks, WaitPc.locksMutex]
  · intro q f' hq
    cases hpc.symm.trans hq
    exact ⟨.tidy,rfl⟩
  · intro f' hq
    cases hpc.symm.trans hq
    exact hfree

theorem waitRelease_waits (h : Waits s L) {f : Wait κ μ} (hpc : s.pc t = .wait .release f) :
    Waits ((s.mutexUnlock (.waitset f.cv)).goto t (.wait .relock f)) L := by
  obtain ⟨r,hr,hrt,hok,hm,-⟩ := hpc ▸ h.thread t
  refine h.moves (p := .wait .relock f)
    ⟨rfl,rfl,rfl,rfl,rfl,rfl,rfl,fun _ _ => rfl,fun _ _ => rfl⟩ ?_
    ⟨r,hr,hrt,hok,hm,by simp [WaitPc.locksMutex]⟩ (by simp [hpc]) ?_ (by simp [hpc])
  · refine h.locks.release (fun _ => by simp [hpc, Pc.locks, WaitPc.locksWaitset]) fun y hy => ?_
    cases y with
    | waitset c => simp [hpc, Pc.locks, WaitPc.locksWaitset, eq_comm]
    | mutex m => simp [hpc, Pc.locks, WaitPc.locksMutex]
  · intro q f' hq
    cases hpc.symm.trans hq
    exact ⟨.relock,rfl⟩

/-- A step of t, which has the lock of c, that concerns the call of v with waiter w. -/
structure Acts (s s' : State τ κ μ) (t v : τ) (w : WaiterRef) (c : CondVar κ) (p : Pc κ μ)
    (L L' : CondVar κ → List WaiterRef) : Prop where
  pc : s'.pc = Function.update s.pc t p
  waiters : ∀ x, x≠w → s'.waiters x = s.waiters x
  waiter : ∃ r, s'.waiters w = some r ∧ r.thread = v
  stopped : ∀ u, u≠v → s'.stopped u = s.stopped u
  cause : ∀ u, u≠v → s'.cause u = s.cause u
  lists : ∀ d, d≠c → L' d = L d
  list : ∀ x, x≠w → (x∈L' c ↔ x∈L c)
  arrivals : ∀ x d, x≠w → x∈s'.arrivals d → x∈s.arrivals d
  next : s'.next = s.next
  returns : s'.returns = s.returns

omit [DecidableEq τ] in
theorem Waits.waiter_ne (h : Waits s L) {u v : τ} {q q' : WaitPc} {f f' : Wait κ μ}
    (hu : s.pc u = .wait q f) (hv : s.pc v = .wait q' f') (huv : u≠v) : f.waiter≠f'.waiter := by
  intro he
  obtain ⟨r,hr,hrt,-⟩ := hu ▸ h.thread u
  obtain ⟨r',hr',hrt',-⟩ := hv ▸ h.thread v
  rw [he, hr'] at hr
  cases hr
  exact huv (hrt.symm.trans hrt')

theorem Waits.acts (h : Waits s L) {s' : State τ κ μ} {L' : CondVar κ → List WaiterRef} {v : τ}
    {q : WaitPc} {f : Wait κ μ} {p : Pc κ μ} (ha : Acts s s' t v f.waiter f.cv p L L')
    (hv : s.pc v = .wait q f) (hlock : (s.pc t).locks (.waitset f.cv) = true)
    (hlocks : Locks s'.pc s'.held) (hrings : Rings s'.heap s'.waitset L')
    (ht : ThreadOk s' L' t p) (hvok : v≠t → ThreadOk s' L' v (s.pc v))
    (hcall : ∀ q f, s.pc t = .wait q f → ∃ q', p = .wait q' f)
    (hwake : ∀ x, x≠f.waiter → ∀ g, s.pc t≠.signal (.wake x) g ∧ s.pc t≠.signal (.mark x) g)
    (hfresh : ∀ x, s.next≤x → ∀ d, x∉s'.arrivals d)
    (horder : ∀ d, (L' d).Sublist (s'.arrivals d)) (honce : ∀ d, (s'.arrivals d).Nodup) :
    Waits s' L' := by
  have hpc : ∀ u, u≠t → s'.pc u = s.pc u := fun u hu => by rw [ha.pc, Function.update_of_ne hu]
  have hframe : ∀ r q f, s.pc r = .wait q f → ∃ q', s'.pc r = .wait q' f := by
    intro r q f hr
    by_cases hrt : r = t
    · subst hrt
      rw [ha.pc, Function.update_self]
      exact hcall q f hr
    · exact ⟨q,by rw [hpc r hrt, hr]⟩
  obtain ⟨q',hq'⟩ := hframe v q f hv
  obtain ⟨r0,hr0,hrv⟩ := ha.waiter
  have hx : ∀ x, s'.waiters x≠none → x = f.waiter ∨ s'.waiters x = s.waiters x := fun x _ => by
    by_cases he : x = f.waiter
    · exact Or.inl he
    · exact Or.inr (ha.waiters x he)
  refine ⟨hlocks,hrings,fun u => ?_,fun x r hr => ?_,fun d x hx => ?_,fun x hx => ?_,horder,honce,
    by rw [ha.returns]; exact h.returned⟩
  · by_cases hut : u = t
    · subst hut
      rw [ha.pc, Function.update_self]
      exact ht
    by_cases huv : u = v
    · subst huv
      rw [hpc u hut]
      exact hvok hut
    rw [hpc u hut]
    refine (h.thread u).frame (ha.stopped u huv) (ha.cause u huv) (fun qu fu hu => ?_)
      fun qu g hu hl => ?_
    · have hne : fu.waiter≠f.waiter := h.waiter_ne hu hv huv
      refine ⟨ha.waiters _ hne,?_,fun hk => hk.goto ha.pc fun g => (hwake _ hne g).1,
        fun hk => hk.goto ha.pc fun g => (hwake _ hne g).2,fun d => ha.arrivals _ d hne⟩
      by_cases hd : fu.cv = f.cv
      · rw [hd]
        exact ha.list _ hne
      · rw [ha.lists _ hd]
    · have hgc : g.cv≠f.cv := by
        intro he
        refine hut (h.locks.unique rfl (x := .waitset f.cv) ?_ hlock)
        simp [hu, Pc.locks, hl, he]
      -- The calls that u has taken are on another condition variable.
      have hT : ∀ x r, Taken s g.cv x r → r.thread≠t ∧ r.thread≠v ∧ x≠f.waiter := by
        intro x r hT
        obtain ⟨fr,hfr,hfx,hfc⟩ := hT.call
        have hrt : r.thread≠t := by
          intro he
          rw [← he, hfr] at hlock
          simp [Pc.locks, WaitPc.locksWaitset] at hlock
        have hrv : r.thread≠v := by
          intro he
          rw [he, hv] at hfr
          cases hfr
          exact hgc hfc.symm
        exact ⟨hrt,hrv,hfx ▸ h.waiter_ne hfr hv hrv⟩
      refine ⟨ha.lists _ hgc,fun x r hr => ?_,fun x r hr hun => ?_,fun x r k hr hk => ?_⟩
      · obtain ⟨h1,h2,h3⟩ := hT x r hr
        exact hr.frame (hpc _ h1) (ha.waiters x h3)
      · obtain ⟨-,h2,-⟩ := hT x r hr
        exact hun.frame (ha.stopped _ h2) (ha.cause _ h2)
      · obtain ⟨-,h2,-⟩ := hT x r hr
        rw [ha.cause _ h2, hk]
  · cases hx x (by simp [hr]) with
    | inl he =>
      subst he
      rw [hr0] at hr
      cases hr
      exact ⟨q',f,by rw [hrv, hq'],rfl⟩
    | inr he =>
      obtain ⟨q1,f1,hq1,hf1⟩ := h.call x r (by rw [← he, hr])
      obtain ⟨q2,hq2⟩ := hframe r.thread q1 f1 hq1
      exact ⟨q2,f1,hq2,hf1⟩
  · by_cases he : x = f.waiter
    · subst he
      by_cases hd : d = f.cv
      · exact ⟨r0,q',f,hr0,by rw [hrv, hq'],rfl,hd.symm⟩
      · rw [ha.lists d hd] at hx
        obtain ⟨r,q1,f1,hr,hq1,hf1,hc1⟩ := h.inRing d _ hx
        obtain ⟨r',hr',hrt',-⟩ := hv ▸ h.thread v
        rw [hr'] at hr
        cases hr
        rw [hrt', hv] at hq1
        cases hq1
        exact absurd hc1.symm hd
    · have hx' : x∈L d := by
        by_cases hd : d = f.cv
        · subst hd
          exact (ha.list x he).mp hx
        · rwa [ha.lists d hd] at hx
      obtain ⟨r,q1,f1,hr,hq1,hf1,hc1⟩ := h.inRing d x hx'
      obtain ⟨q2,hq2⟩ := hframe r.thread q1 f1 hq1
      exact ⟨r,q2,f1,by rw [ha.waiters x he, hr],hq2,hf1,hc1⟩
  · rw [ha.next] at hx
    refine ⟨?_,hfresh x hx⟩
    have hne : x≠f.waiter := by
      rintro rfl
      obtain ⟨r,hr,-⟩ := hv ▸ h.thread v
      rw [(h.fresh _ hx).1] at hr
      cases hr
    rw [ha.waiters x hne]
    exact (h.fresh x hx).1

omit [DecidableEq τ] in
theorem Waits.mem_cv (h : Waits s L) {q : WaitPc} {f : Wait κ μ} {c : CondVar κ}
    (ht : s.pc t = .wait q f) (hm : f.waiter∈L c) : c = f.cv := by
  obtain ⟨r,q',f',hr,hq',hf',hc⟩ := h.inRing c _ hm
  obtain ⟨r',hr',hrt',-⟩ := ht ▸ h.thread t
  rw [hr'] at hr
  cases hr
  rw [hrt', ht] at hq'
  cases hq'
  exact hc.symm

omit [DecidableEq τ] in
theorem Waits.live (h : Waits s L) (c : CondVar κ) (w : WaiterRef) (hw : w∈L c) :
    (s.waiters w).isSome = true := by
  obtain ⟨r,-,-,hr,-⟩ := h.inRing c w hw
  simp [hr]

omit [DecidableEq τ] in
theorem Waits.waiter_lt (h : Waits s L) {q : WaitPc} {f : Wait κ μ} (ht : s.pc t = .wait q f) :
    f.waiter<s.next := by
  obtain ⟨r,hr,-⟩ := ht ▸ h.thread t
  by_contra hle
  rw [(h.fresh f.waiter (Nat.not_lt.mp hle)).1] at hr
  cases hr

theorem waitPush_waits (h : Waits s L) {f : Wait κ μ} (hpc : s.pc t = .wait .push f) :
    ∃ s' L', runWait s t f .push = some s' ∧ Waits s' L' := by
  obtain ⟨r,hr,hrt,hok,hm,hnew⟩ := hpc ▸ h.thread t
  have hnot : ∀ c, f.waiter∉L c := by
    intro c hmem
    have hc := h.mem_cv hpc hmem
    rw [hc] at hmem
    simp [WaitPc.queued] at hm
    exact hm hmem
  have hnot' : ∀ c, f.waiter∉s.arrivals c := hnew rfl (by simp)
  obtain ⟨heap,waitset,hpush,hrings⟩ := pushWaiter_eq (c := f.cv) h.rings h.live hnot (by simp [hr])
  refine ⟨_,Function.update L f.cv (L f.cv++[f.waiter]),by rw [runWait, hpush, Option.map_some],?_⟩
  refine h.acts (v := t) (p := .wait .unlock f) ⟨rfl,fun _ _ => rfl,⟨r,hr,hrt⟩,fun _ _ => rfl,
    fun _ _ => rfl,?_,?_,?_,rfl,rfl⟩ hpc (by simp [hpc, Pc.locks, WaitPc.locksWaitset]) ?_ hrings
    ⟨r,hr,hrt,hok,?_,by simp⟩ (fun hne => absurd rfl hne) ?_ (by simp [hpc]) ?_ ?_ ?_
  · intro d hd
    rw [Function.update_of_ne hd]
  · intro x hx
    simp [hx]
  · intro x d hx
    by_cases hd : d = f.cv
    · simp [hd, hx]
    · simp [hd]
  · refine h.locks.same fun y hy => ?_
    cases y with
    | waitset c => simp [hpc, Pc.locks, WaitPc.locksWaitset]
    | mutex m => simp [hpc, Pc.locks, WaitPc.locksMutex]
  · simp only [Function.update_self, List.mem_append, List.mem_singleton, or_true,
      WaitPc.queued, true_and, true_iff]
    exact hok.2.1
  · intro q f' hq
    cases hpc.symm.trans hq
    exact ⟨.unlock,rfl⟩
  · intro x hx d
    have hlt := h.waiter_lt hpc
    by_cases hd : d = f.cv
    · have hne : x≠f.waiter := Nat.ne_of_gt (Nat.lt_of_lt_of_le hlt hx)
      simp [hd, (h.fresh x hx).2 f.cv, hne]
    · simp [hd, (h.fresh x hx).2 d]
  · intro d
    by_cases hd : d = f.cv
    · subst hd
      simpa using (h.order f.cv).append (List.Sublist.refl [f.waiter])
    · simpa [hd] using h.order d
  · intro d
    by_cases hd : d = f.cv
    · subst hd
      simp only [Function.update_self]
      refine List.nodup_append.mpr ⟨h.once f.cv,List.nodup_singleton _,?_⟩
      intro x hx y hy hxy
      rw [hxy, List.mem_singleton.mp hy] at hx
      exact hnot' f.cv hx
    · simpa [hd] using h.once d

omit [DecidableEq τ] in
theorem erase_order (h : Waits s L) (c : CondVar κ) (w : WaiterRef) (d : CondVar κ) :
    (Function.update L c ((L c).erase w) d).Sublist (s.arrivals d) := by
  by_cases hd : d = c
  · subst hd
    rw [Function.update_self]
    exact List.erase_sublist.trans (h.order d)
  · rw [Function.update_of_ne hd]
    exact h.order d

theorem waitTidy_waits (h : Waits s L) {f : Wait κ μ} (hpc : s.pc t = .wait .tidy f) :
    ∃ s' L', runWait s t f .tidy = some s' ∧ Waits s' L' := by
  obtain ⟨r,hr,hrt,hok,hm,-⟩ := hpc ▸ h.thread t
  have hlocks : Locks (Function.update s.pc t (.wait .release f)) s.held := by
    refine h.locks.same fun y hy => ?_
    cases y with
    | waitset c => simp [hpc, Pc.locks, WaitPc.locksWaitset]
    | mutex m => simp [hpc, Pc.locks, WaitPc.locksMutex]
  have hcall : ∀ q f', s.pc t = .wait q f' → ∃ q', Pc.wait WaitPc.release f = .wait q' f' := by
    intro q f' hq
    cases hpc.symm.trans hq
    exact ⟨.release,rfl⟩
  cases hrem : r.removed with
  | true =>
    refine ⟨s.goto t (.wait .release f),L,by simp [runWait, tidyUp, hr, hrem],?_⟩
    refine h.moves (p := .wait .release f) ⟨rfl,rfl,rfl,rfl,rfl,rfl,rfl,fun _ _ => rfl,
      fun _ _ => rfl⟩ hlocks ⟨r,hr,hrt,hok,?_,by simp [WaitPc.locksMutex]⟩ (by simp [hpc]) hcall
      (by simp [hpc])
    simpa [WaitPc.queued, hrem] using hm
  | false =>
    have hsig : r.signalled = false := by
      cases hok.2 with
      | inl hs => simp [hrem] at hs
      | inr hs => exact hs.1
    have hmem : f.waiter∈L f.cv := hm.mpr ⟨rfl,hrem⟩
    obtain ⟨heap,waitset,hrm,hrings⟩ := removeFromRing_eq h.rings h.live hmem
    refine ⟨{ s with heap := heap, waitset := waitset }.goto t (.wait .release f),_,
      by simp [runWait, tidyUp, hr, hrem, hsig, hrm],h.acts (v := t) (p := .wait .release f)
      ⟨rfl,fun _ _ => rfl,⟨r,hr,hrt⟩,fun _ _ => rfl,fun _ _ => rfl,?_,?_,fun _ _ _ => id,rfl,rfl⟩ hpc
        (by simp [hpc, Pc.locks, WaitPc.locksWaitset])
      hlocks hrings ⟨r,hr,hrt,hok,?_,by simp [WaitPc.locksMutex]⟩ (fun hne => absurd rfl hne) hcall
      (by simp [hpc]) (fun x hx => (h.fresh x hx).2) (erase_order h f.cv f.waiter) h.once⟩
    · intro d hd
      rw [Function.update_of_ne hd]
    · intro x hx
      rw [Function.update_self, List.mem_erase_of_ne hx]
    · have hn := h.rings.cycles.nodup f.cv
      simp [WaitPc.queued, hn.not_mem_erase]

theorem endWait_waits (h : Waits s L) {f : Wait κ μ} (hpc : s.pc t = .wait .relock f)
    (hfree : s.held (.mutex f.mutex) = none) (hback : f.back = .user → f.mutex≠.kernelMutex)
    (hback' : f.back≠.user → f.mutex = .kernelMutex) :
    ∃ s' L', runWait s t f .relock = some s' ∧ Waits s' L' := by
  obtain ⟨r,hr,hrt,hok,hm,-⟩ := hpc ▸ h.thread t
  have hnot : ∀ c, f.waiter∉L c := by
    intro c hmem
    have hc := h.mem_cv hpc hmem
    rw [hc] at hmem
    simp [WaitPc.queued] at hm
    exact hm hmem
  set p : Pc κ μ := f.back.pc r.signalled with hp
  set s' : State τ κ μ := { ((s.mutexLock t (.mutex f.mutex)).setWaiter f.waiter none).goto t p with
    returns := s.returns++[⟨t,f.cv,r.signalled,s.cause t⟩] } with hs'
  have hpc' : ∀ u, u≠t → s'.pc u = s.pc u := fun u hu => Function.update_of_ne hu _ _
  have hother : ∀ x, x≠f.waiter → s'.waiters x = s.waiters x := fun x hx => Function.update_of_ne
    hx _ _
  have hgone : s'.waiters f.waiter = none := Function.update_self ..
  have hnt : ∀ x r', s.waiters x = some r' → x≠f.waiter → r'.thread≠t := by
    intro x r' hx hne he
    obtain ⟨q,f',hq,hf'⟩ := h.call x r' hx
    rw [he, hpc] at hq
    cases hq
    exact hne hf'.symm
  refine ⟨s',L,?_,?_⟩
  · simp only [runWait, endWait]
    have : (s.mutexLock t (.mutex f.mutex)).waiters f.waiter = some r := hr
    rw [this, Option.map_some]
    rfl
  refine ⟨?_,h.rings,fun u => ?_,fun x r' hx => ?_,fun c x hx => ?_,fun x hx => ?_,h.order,
    h.once,?_⟩
  · refine h.locks.acquire hfree fun y hy => ?_
    cases y with
    | waitset c =>
      cases hb : f.back <;> simp [hp, hb, WaitBack.pc, hpc, Pc.locks, WaitPc.locksWaitset]
    | mutex m =>
      cases m with
      | other m => cases hy
      | kernelMutex =>
        cases hb : f.back with
        | user =>
          have := hback hb
          simp [hp, hb, WaitBack.pc, hpc, Pc.locks, WaitPc.locksMutex, this.symm]
        | loop ret =>
          have := hback' (by simp [hb])
          simp [hp, hb, WaitBack.pc, Pc.locks, this]
        | kernelWait =>
          have := hback' (by simp [hb])
          simp [hp, hb, WaitBack.pc, Pc.locks, this]
  · by_cases hut : u = t
    · subst hut
      have hpu : s'.pc u = p := Function.update_self ..
      rw [hpu, hp]
      cases hb : f.back <;> trivial
    · rw [hpc' u hut]
      refine (h.thread u).frame rfl rfl (fun q f' hu => ?_) fun q g hu hq => ?_
      · have hne := h.waiter_ne hu hpc hut
        exact ⟨hother _ hne,Iff.rfl,fun hk => hk.goto rfl (by simp [hpc]),
          fun hk => hk.goto rfl (by simp [hpc]),fun _ => id⟩
      · refine ⟨rfl,fun w r' hT => ?_,fun w r' hT hun => hun,fun w r' k hT hk => hk⟩
        obtain ⟨fr,hfr,hfw,-⟩ := hT.call
        have hrt' : r'.thread≠t := by
          intro he
          rw [he, hpc] at hfr
          cases hfr
        have hne : w≠f.waiter := hfw ▸ h.waiter_ne hfr hpc hrt'
        exact hT.frame (hpc' _ hrt') (hother w hne)
  · have hne : x≠f.waiter := by
      rintro rfl
      rw [hgone] at hx
      cases hx
    rw [hother x hne] at hx
    obtain ⟨q,f',hq,hf'⟩ := h.call x r' hx
    exact ⟨q,f',by rw [hpc' _ (hnt x r' hx hne), hq],hf'⟩
  · have hne : x≠f.waiter := fun he => hnot c (he ▸ hx)
    obtain ⟨r',q,f',hr',hq,hf',hc⟩ := h.inRing c x hx
    exact ⟨r',q,f',by rw [hother x hne, hr'],by rw [hpc' _ (hnt x r' hr' hne), hq],hf',hc⟩
  · refine ⟨?_,(h.fresh x hx).2⟩
    by_cases hne : x = f.waiter
    · rw [hne, hgone]
    · rw [hother x hne]
      exact (h.fresh x hx).1
  · intro x hx
    rcases List.mem_append.mp hx with hx | hx
    · exact h.returned x hx
    · rw [List.mem_singleton.mp hx]
      rcases hok.2 with ⟨-,hs,hc⟩ | ⟨hs,hc⟩
      · simp [hs, hc]
      · simp [hs, hc]

theorem beginWait_waits (h : Waits s L) (mutex : Mutex μ) (cv : CondVar κ) (timed : Bool)
    (back : WaitBack) (held : Lock κ μ → Option τ) (hst : s.stopped t = false)
    (hpc : ∀ q f, s.pc t≠.wait q f)
    (hwake : ∀ w g, s.pc t≠.signal (.wake w) g ∧ s.pc t≠.signal (.mark w) g)
    (hlocks : Locks (Function.update s.pc t (.wait .lock ⟨mutex,cv,timed,s.next,back⟩)) held) :
    Waits (beginWait { s with held := held } t mutex cv timed back) L := by
  set f : Wait κ μ := ⟨mutex,cv,timed,s.next,back⟩ with hf
  have hfresh := h.fresh s.next (Nat.le_refl _)
  have hnot : ∀ c, s.next∉L c := fun c hm => hfresh.2 c ((h.order c).subset hm)
  set s' := beginWait { s with held := held } t mutex cv timed back with hs'
  have hheap : s'.heap = s.heap := h.rings.init hnot
  have hpc' : ∀ u, u≠t → s'.pc u = s.pc u := fun u hu => Function.update_of_ne hu _ _
  have hother : ∀ x, x≠s.next → s'.waiters x = s.waiters x := fun x hx => Function.update_of_ne
    hx _ _
  have hself : s'.waiters s.next = some ⟨t,false,false⟩ := Function.update_self ..
  have hselfpc : s'.pc t = .wait .lock f := Function.update_self ..
  have hold : ∀ x r, s.waiters x = some r → x≠s.next ∧ r.thread≠t := by
    intro x r hx
    refine ⟨?_,?_⟩
    · rintro rfl
      rw [hfresh.1] at hx
      cases hx
    · intro he
      obtain ⟨q,f',hq,-⟩ := h.call x r hx
      exact hpc q f' (he ▸ hq)
  refine ⟨hlocks,by rw [hheap]; exact h.rings,fun u => ?_,fun x r hx => ?_,fun c x hx => ?_,
    fun x hx => ?_,h.order,h.once,h.returned⟩
  · by_cases hut : u = t
    · subst hut
      rw [hselfpc]
      exact ⟨_,hself,rfl,⟨hst,rfl,rfl⟩,by simp [hf, hnot, WaitPc.queued],fun _ _ => hfresh.2⟩
    · rw [hpc' u hut]
      refine (h.thread u).frame rfl rfl (fun q f' hu => ?_) fun q g hu hq => ?_
      · have hne : f'.waiter≠s.next := Nat.ne_of_lt (h.waiter_lt hu)
        exact ⟨hother _ hne,Iff.rfl,fun hk => hk.goto rfl fun g => (hwake _ g).1,
          fun hk => hk.goto rfl fun g => (hwake _ g).2,fun _ => id⟩
      · refine ⟨rfl,fun w r hT => ?_,fun w r hT hun => hun,fun w r k hT hk => hk⟩
        obtain ⟨h1,h2⟩ := hold w r hT.waiter
        exact hT.frame (hpc' _ h2) (hother w h1)
  · by_cases hne : x = s.next
    · subst hne
      rw [hself] at hx
      cases hx
      exact ⟨.lock,f,hselfpc,rfl⟩
    · rw [hother x hne] at hx
      obtain ⟨q,f',hq,hf'⟩ := h.call x r hx
      exact ⟨q,f',by rw [hpc' _ (hold x r hx).2, hq],hf'⟩
  · obtain ⟨r,q,f',hr,hq,hf',hc⟩ := h.inRing c x hx
    obtain ⟨h1,h2⟩ := hold x r hr
    exact ⟨r,q,f',by rw [hother x h1, hr],by rw [hpc' _ h2, hq],hf',hc⟩
  · have hlt : s.next<x := hx
    refine ⟨?_,(h.fresh x (Nat.le_of_lt hlt)).2⟩
    rw [hother x (Nat.ne_of_gt hlt)]
    exact (h.fresh x (Nat.le_of_lt hlt)).1

end TinyOS.CC
