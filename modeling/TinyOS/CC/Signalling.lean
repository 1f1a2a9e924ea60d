import TinyOS.CC.Waiting

/-! The steps of Cond_Signal and Cond_Broadcast, and the expiry of a timeout, keep the
invariant of the condition variables. -/
namespace TinyOS.CC
open RList Ring
variable {τ κ μ : Type*} [DecidableEq τ] [DecidableEq κ] [DecidableEq μ]
variable {s : State τ κ μ} {L : CondVar κ → List WaiterRef} {t : τ}

theorem filter_eq_of_sublist {α : Type*} {l m : List α} {p : α → Bool} (h : l.Sublist m)
    (hm : m.Nodup) (hp : ∀ x, p x = true ↔ x∈l) : m.filter p = l := by
  have hperm : (m.filter p).Perm l := by
    refine (List.perm_ext_iff_of_nodup (hm.filter p) (hm.sublist h)).mpr fun x => ?_
    rw [List.mem_filter, hp x]
    exact ⟨And.right,fun hx => ⟨h.subset hx,hx⟩⟩
  have hsub : l.Sublist (m.filter p) := by
    have := h.filter p
    rwa [List.filter_eq_self.mpr fun x hx => (hp x).mpr hx] at this
  exact (hsub.eq_of_length hperm.length_eq.symm).symm

omit [DecidableEq τ] in
theorem Waits.queued_iff (h : Waits s L) (c : CondVar κ) (w : WaiterRef) :
    s.queued c w = true ↔ w∈L c := by
  constructor
  · intro hq
    unfold State.queued at hq
    split at hq
    · cases hq
    · rename_i r hr
      split at hq
      · rename_i q f hf
        simp only [Bool.and_eq_true, Bool.not_eq_true', decide_eq_true_eq] at hq
        obtain ⟨⟨⟨hq,hrem⟩,hfw⟩,hfc⟩ := hq
        obtain ⟨r',hr',-,-,hm,-⟩ := hf ▸ h.thread r.thread
        rw [hfw, hr] at hr'
        cases hr'
        rw [← hfw, ← hfc]
        exact hm.mpr ⟨hq,hrem⟩
      · cases hq
  · intro hm
    obtain ⟨r,q,f,hr,hf,rfl,rfl⟩ := h.inRing c w hm
    obtain ⟨r',hr',-,-,hm',-⟩ := hf ▸ h.thread r.thread
    rw [hr] at hr'
    cases hr'
    obtain ⟨hq,hrem⟩ := hm'.mp hm
    simp [State.queued, hr, hf, hq, hrem]

omit [DecidableEq τ] in
/-- The ring is the list of the queued waiters in the order of their arrival. -/
theorem Waits.queue_eq (h : Waits s L) (c : CondVar κ) : s.queue c = L c :=
  filter_eq_of_sublist (h.order c) (h.once c) (h.queued_iff c)

omit [DecidableEq τ] [DecidableEq κ] [DecidableEq μ] in
theorem Taken.ne_signal {c : CondVar κ} {w : WaiterRef} {r : Waiter τ} (hT : Taken s c w r)
    {q : SignalPc} {g : Signal κ} (hpc : s.pc t = .signal q g) : r.thread≠t := by
  obtain ⟨f,hf,-⟩ := hT.call
  intro he
  rw [he, hpc] at hf
  cases hf

theorem signalLock_waits (h : Waits s L) {g : Signal κ} (hpc : s.pc t = .signal .lock g)
    (hfree : s.held (.waitset g.cv) = none) : Waits ((s.mutexLock t (.waitset g.cv)).goto t
      (.signal .test { g with start := s.queue g.cv })) L := by
  have hseen : g.seen = [] := by
    have := h.thread t
    rwa [hpc] at this
  refine h.goto (p := .signal .test { g with start := s.queue g.cv })
    ⟨rfl,rfl,rfl,rfl,rfl,rfl,rfl,fun _ _ => rfl,fun _ _ => rfl⟩ ?_ ⟨⟨?_,?_⟩,?_⟩ (by simp [hpc])
    (by simp [hpc])
  · refine h.locks.acquire hfree fun y hy => ?_
    cases y with
    | waitset c => simp [hpc, Pc.locks, SignalPc.locksWaitset, eq_comm]
    | mutex m => cases m <;> simp [hpc, Pc.locks]
  · simp [hseen, h.queue_eq]
  · simp [hseen]
  · simp [hseen]

theorem signalTest_locks {g g' : Signal κ} {q : SignalPc}
    (h : Locks s.pc s.held) {q' : SignalPc} (hpc : s.pc t = .signal q g)
    (hq : q.locksWaitset = true) (hq' : q'.locksWaitset = true) (hcv : g'.cv = g.cv)
    (hback : g'.back = g.back) : Locks (Function.update s.pc t (.signal q' g')) s.held := by
  refine h.same fun y hy => ?_
  cases y with
  | waitset c => simp [hpc, Pc.locks, hq, hq', hcv]
  | mutex m => cases m <;> simp [hpc, Pc.locks, hback]

theorem signalEmpty_waits (h : Waits s L) {g : Signal κ} (hpc : s.pc t = .signal .test g)
    (hn : s.waitset g.cv = none) : Waits (s.goto t (.signal .release g)) L := by
  obtain ⟨hseen,hb⟩ := hpc ▸ h.thread t
  have hL : L g.cv = [] := by
    rw [h.rings.head] at hn
    simpa using hn
  refine h.goto (p := .signal .release g)
    ⟨rfl,rfl,rfl,rfl,rfl,rfl,rfl,fun _ _ => rfl,fun _ _ => rfl⟩
    (signalTest_locks h.locks hpc rfl rfl rfl rfl) ⟨?_,Or.inl ⟨hL,hb⟩⟩ (by simp [hpc])
    (by simp [hpc])
  exact hseen.frame ⟨fun w r hT => hT.frame (Function.update_of_ne (hT.ne_signal hpc) _ _) rfl,
    fun w r hT hun => hun.frame rfl rfl,fun w r k _ hk => hk⟩

omit [DecidableEq τ] in
theorem Waits.asleep_of_mem (h : Waits s L) {q : SignalPc} {g : Signal κ}
    (hpc : s.pc t = .signal q g)
    (hq : q.locksWaitset = true) {w : WaiterRef} (hw : w∈L g.cv) :
    ∃ r f, s.waiters w = some r ∧ s.pc r.thread = .wait .asleep f ∧ f.waiter = w ∧ f.cv = g.cv ∧
      r.removed = false ∧ r.signalled = false ∧ Unsignalled s r.thread := by
  obtain ⟨r,q',f,hr,hf,rfl,hcv⟩ := h.inRing g.cv w hw
  obtain ⟨r',hr',-,hok,hm,-⟩ := hf ▸ h.thread r.thread
  rw [hr] at hr'
  cases hr'
  obtain ⟨hqd,hrem⟩ := hm.mp (by rw [hcv]; exact hw)
  have hno : (s.pc r.thread).locks (.waitset g.cv) = false := by
    by_contra hl
    have hlt : (s.pc t).locks (.waitset g.cv) = true := by simp [hpc, Pc.locks, hq]
    have := h.locks.unique rfl (by simpa using hl) hlt
    rw [this, hpc] at hf
    cases hf
  have hqa : q' = .asleep := by
    rw [hf] at hno
    cases q' <;> simp_all [Pc.locks, WaitPc.locksWaitset, WaitPc.queued]
  subst hqa
  refine ⟨r,f,hr,hf,rfl,hcv,hrem,?_⟩
  rcases hok with ⟨hsig,hun,-⟩ | ⟨-,hr',-⟩ | ⟨hr',-⟩
  · exact ⟨hsig,hun⟩
  · simp [hrem] at hr'
  · simp [hrem] at hr'

theorem signalPop_waits (h : Waits s L) {g : Signal κ} {w : WaiterRef}
    (hpc : s.pc t = .signal .test g) (hw : s.waitset g.cv = some w) :
    ∃ s' L', runSignal s t g .test = some s' ∧ Waits s' L' := by
  obtain ⟨hseen,hb⟩ := hpc ▸ h.thread t
  have hhead : (L g.cv).head? = some w := (h.rings.head g.cv).symm.trans hw
  obtain ⟨l,hl⟩ : ∃ l, L g.cv = w::l := by
    cases hL : L g.cv with
    | nil => simp [hL] at hhead
    | cons x l =>
      rw [hL, List.head?_cons, Option.some.injEq] at hhead
      exact ⟨l,by rw [hhead]⟩
  have hmem : w∈L g.cv := by simp [hl]
  obtain ⟨r,f,hr,hf,hfw,hcv,hrem,hsig,hun⟩ := h.asleep_of_mem hpc rfl hmem
  obtain ⟨heap,waitset,hrm,hrings⟩ := removeFromRing_eq h.rings h.live hmem
  have hrt : r.thread≠t := by
    intro he
    rw [he, hpc] at hf
    cases hf
  set s' := ({ s with heap := heap, waitset := waitset }.setWaiter w
    (some { r with removed := true })).goto t (.signal (.wake w) g) with hs'
  have hpc' : ∀ u, u≠t → s'.pc u = s.pc u := fun u hu => Function.update_of_ne hu _ _
  have hself : s'.waiters w = some { r with removed := true } := Function.update_self ..
  have hother : ∀ x, x≠w → s'.waiters x = s.waiters x := fun x hx => Function.update_of_ne hx _ _
  have hn := h.rings.cycles.nodup g.cv
  have htaken : Taken s' g.cv w { r with removed := true } :=
    ⟨⟨f,by rw [hpc' _ hrt, hf],hfw,hcv⟩,hself,rfl⟩
  refine ⟨s',Function.update L g.cv ((L g.cv).erase w),?_,?_⟩
  · simp only [runSignal, hw, hrm, Option.bind_some, hr, Option.map_some]
    rfl
  subst hfw
  rw [← hcv] at hrings hn ⊢
  refine h.acts (v := r.thread) (p := .signal (.wake f.waiter) g) ⟨rfl,hother,⟨_,hself,rfl⟩,
    fun _ _ => rfl,fun _ _ => rfl,?_,?_,fun _ _ _ => id,rfl,rfl⟩ hf ?_
    (signalTest_locks h.locks hpc rfl rfl rfl rfl) hrings ⟨⟨?_,?_⟩,hb,_,htaken,hsig,hun⟩
    (fun _ => ?_) (by simp [hpc]) (by simp [hpc]) (fun x hx => (h.fresh x hx).2)
    (erase_order h f.cv f.waiter) h.once
  · intro d hd
    rw [Function.update_of_ne hd]
  · intro x hx
    rw [Function.update_self, List.mem_erase_of_ne hx]
  · simp [hpc, Pc.locks, SignalPc.locksWaitset, hcv]
  · rw [← hcv, Function.update_self, hcv, hl, List.erase_cons_head, ← hl]
    exact hseen.start
  · intro x hx
    obtain ⟨rx,hT,hxs,hxc⟩ := hseen.seen x hx
    have hne : x.1≠f.waiter := by
      intro he
      rw [he] at hT
      have := Option.some.inj (hT.waiter.symm.trans hr)
      have := hT.removed
      simp_all
    exact ⟨rx,hT.frame (hpc' _ (hT.ne_signal hpc)) (hother _ hne),hxs,hxc⟩
  · rw [hf]
    refine ⟨_,hself,rfl,Or.inl ⟨hsig,hun,fun _ => Or.inl ⟨t,g,Function.update_self ..⟩⟩,?_,
      by simp [WaitPc.locksMutex]⟩
    rw [Function.update_self]
    simp [hn.not_mem_erase]

omit [DecidableEq τ] in
theorem Waits.taken_call (h : Waits s L) {c : CondVar κ} {w : WaiterRef} {r : Waiter τ}
    (hT : Taken s c w r) : ∃ f, s.pc r.thread = .wait .asleep f ∧ f.waiter = w ∧ f.cv = c ∧
      WaitOk s r.thread c w r .asleep ∧ w∉L c := by
  obtain ⟨f,hf,rfl,rfl⟩ := hT.call
  obtain ⟨r',hr',-,hok,hm,-⟩ := hf ▸ h.thread r.thread
  rw [hT.waiter] at hr'
  cases hr'
  refine ⟨f,hf,rfl,rfl,hok,fun hmem => ?_⟩
  have := (hm.mp hmem).2
  simp [hT.removed] at this

theorem signalWake_waits (h : Waits s L) {g : Signal κ} {w : WaiterRef}
    (hpc : s.pc t = .signal (.wake w) g) :
    ∃ s' L', runSignal s t g (.wake w) = some s' ∧ Waits s' L' := by
  obtain ⟨hseen,hb,r,hT,hsig,hun⟩ := hpc ▸ h.thread t
  obtain ⟨f,hf,hfw,hcv,hok,hnot⟩ := h.taken_call hT
  have hrt := hT.ne_signal hpc
  have hlock : (s.pc t).locks (.waitset f.cv) = true := by
    simp [hpc, Pc.locks, SignalPc.locksWaitset, hcv]
  have hr := hT.waiter
  cases hst : s.stopped r.thread with
  | true =>
    set s' := { s with
      stopped := Function.update s.stopped r.thread false
      cause := Function.update s.cause r.thread (some (.signal g.cv)) }.goto t
        (.signal (.mark w) g) with hs'
    have hpc' : ∀ u, u≠t → s'.pc u = s.pc u := fun u hu => Function.update_of_ne hu _ _
    have hstop : s'.stopped r.thread = false := Function.update_self ..
    have hcause : s'.cause r.thread = some (.signal g.cv) := Function.update_self ..
    have hseen' : SeenOk s' g (w::L g.cv) := by
      refine ⟨hseen.start,fun x hx => ?_⟩
      obtain ⟨rx,hTx,hxs,hxc⟩ := hseen.seen x hx
      -- A waiter seen before has left STOPPED, so it is not the one woken now.
      have hne : rx.thread≠r.thread := by
        intro he
        cases hun with
        | inl hun =>
          rw [he, hun.2] at hxc
          cases hxc
        | inr hun => simp [hst] at hun
      refine ⟨rx,hTx.frame (hpc' _ (hTx.ne_signal hpc)) rfl,hxs,?_⟩
      rw [← hxc]
      exact Function.update_of_ne hne _ _
    refine ⟨s',L,by simp [runSignal, hr, wakeup, hst, hs'],?_⟩
    subst hfw
    refine h.acts (v := r.thread) (p := .signal (.mark f.waiter) g) ⟨rfl,fun _ _ => rfl,⟨r,hr,rfl⟩,
      fun u hu => Function.update_of_ne hu _ _,fun u hu => Function.update_of_ne hu _ _,
      fun _ _ => rfl,fun _ _ => Iff.rfl,fun _ _ _ => id,rfl,rfl⟩ hf hlock
      (signalTest_locks h.locks hpc rfl rfl rfl rfl) h.rings
      ⟨hseen',hb,r,hT.frame (hpc' _ hrt) rfl,hsig,hcause⟩ (fun _ => ?_) (by simp [hpc]) ?_
      (fun x hx => (h.fresh x hx).2) h.order h.once
    · rw [hf]
      refine ⟨r,hr,rfl,Or.inr (Or.inl ⟨hsig,hT.removed,hstop,by rw [hcause, hcv],t,g,
        Function.update_self ..⟩),?_,by simp [WaitPc.locksMutex]⟩
      simp [hT.removed, hcv, hnot]
    · intro x hx g'
      rw [hpc]
      simp [Ne.symm hx]
  | false =>
    set g' : Signal κ := { g with seen := g.seen++[(w,false)] } with hg'
    set s' := s.goto t (.signal .test g') with hs'
    have hpc' : ∀ u, u≠t → s'.pc u = s.pc u := fun u hu => Function.update_of_ne hu _ _
    have hcause : s.cause r.thread = some .timeout := by
      cases hun with
      | inl hun => simp [hst] at hun
      | inr hun => exact hun.2
    have hseen' : SeenOk s' g' (L g'.cv) := by
      refine ⟨?_,fun x hx => ?_⟩
      · simpa [hg'] using hseen.start
      · rcases List.mem_append.mp hx with hx | hx
        · obtain ⟨rx,hTx,hxs,hxc⟩ := hseen.seen x hx
          exact ⟨rx,hTx.frame (hpc' _ (hTx.ne_signal hpc)) rfl,hxs,hxc⟩
        · rw [List.mem_singleton.mp hx]
          exact ⟨r,hT.frame (hpc' _ hrt) rfl,hsig,hcause⟩
    refine ⟨s',L,by simp [runSignal, hr, wakeup, hst, hs', hg'],?_⟩
    subst hfw
    refine h.acts (v := r.thread) (p := .signal .test g') ⟨rfl,fun _ _ => rfl,⟨r,hr,rfl⟩,
      fun _ _ => rfl,fun _ _ => rfl,fun _ _ => rfl,fun _ _ => Iff.rfl,fun _ _ _ => id,rfl,rfl⟩ hf
        hlock
      (signalTest_locks h.locks hpc rfl rfl rfl rfl) h.rings ⟨hseen',fun hbc x hx => ?_⟩
      (fun _ => ?_) (by simp [hpc]) ?_ (fun x hx => (h.fresh x hx).2) h.order h.once
    · rcases List.mem_append.mp hx with hx | hx
      · exact hb hbc x hx
      · rw [List.mem_singleton.mp hx]
    · rw [hf]
      refine ⟨r,hr,rfl,Or.inl ⟨hsig,hun.frame rfl rfl,fun _ => Or.inr hst⟩,?_,
        by simp [WaitPc.locksMutex]⟩
      simp [hT.removed, hcv, hnot]
    · intro x hx g'
      rw [hpc]
      simp [Ne.symm hx]

theorem signalMark_waits (h : Waits s L) {g : Signal κ} {w : WaiterRef}
    (hpc : s.pc t = .signal (.mark w) g) :
    ∃ s' L', runSignal s t g (.mark w) = some s' ∧ Waits s' L' := by
  obtain ⟨hseen,hb,r,hT,hsig,hcause⟩ := hpc ▸ h.thread t
  obtain ⟨f,hf,hfw,hcv,hok,hnot⟩ := h.taken_call hT
  have hrt := hT.ne_signal hpc
  have hr := hT.waiter
  have hst : s.stopped r.thread = false := by
    rcases hok with ⟨-,hun,-⟩ | ⟨-,-,hst,-⟩ | ⟨-,hset⟩
    · cases hun with
      | inl hun => simp [hun.2] at hcause
      | inr hun => exact hun.1
    · exact hst
    · exact hset.1
  set g' : Signal κ := { g with seen := g.seen++[(w,true)] } with hg'
  set q' : SignalPc := if g.broadcast then .test else .release with hq'
  have hlocksq : q'.locksWaitset = true := by
    rw [hq']
    split <;> rfl
  set s' := (s.setWaiter w (some { r with signalled := true })).goto t (.signal q' g') with hs'
  have hpc' : ∀ u, u≠t → s'.pc u = s.pc u := fun u hu => Function.update_of_ne hu _ _
  have hself : s'.waiters w = some { r with signalled := true } := Function.update_self ..
  have hother : ∀ x, x≠w → s'.waiters x = s.waiters x := fun x hx => Function.update_of_ne hx _ _
  have hseen' : SeenOk s' g' (L g'.cv) := by
    refine ⟨?_,fun x hx => ?_⟩
    · simpa [hg'] using hseen.start
    · rcases List.mem_append.mp hx with hx | hx
      · obtain ⟨rx,hTx,hxs,hxc⟩ := hseen.seen x hx
        have hne : x.1≠w := by
          intro he
          rw [he] at hTx
          have hrr : rx = r := Option.some.inj (hTx.waiter.symm.trans hr)
          rw [hrr, hcause] at hxc
          rw [hrr, hsig] at hxs
          simp [← hxs] at hxc
        exact ⟨rx,hTx.frame (hpc' _ (hTx.ne_signal hpc)) (hother _ hne),hxs,hxc⟩
      · rw [List.mem_singleton.mp hx]
        exact ⟨{ r with signalled := true },⟨⟨f,by rw [hpc' _ hrt, hf],hfw,hcv⟩,hself,hT.removed⟩,
          rfl,hcause⟩
  refine ⟨s',L,by simp [runSignal, hr, hs', hg', hq'],?_⟩
  subst hfw
  refine h.acts (v := r.thread) (p := .signal q' g') ⟨rfl,hother,⟨_,hself,rfl⟩,
    fun _ _ => rfl,fun _ _ => rfl,fun _ _ => rfl,fun _ _ => Iff.rfl,fun _ _ _ => id,rfl,rfl⟩ hf
    (by simp [hpc, Pc.locks, SignalPc.locksWaitset, hcv])
    (signalTest_locks h.locks hpc rfl hlocksq rfl rfl) h.rings ?_
    (fun _ => ?_) (by simp [hpc]) ?_ (fun x hx => (h.fresh x hx).2) h.order h.once
  · change SignalOk s' L g' q'
    rw [hq']
    cases hbc : g.broadcast with
    | true => exact ⟨hseen',by simp [hg', hbc]⟩
    | false => exact ⟨hseen',Or.inr ⟨hbc,g.seen,f.waiter,rfl,hb hbc⟩⟩
  · rw [hf]
    refine ⟨_,hself,rfl,Or.inr (Or.inr ⟨hT.removed,hst,Or.inl ⟨hT.removed,rfl,?_⟩⟩),?_,
      by simp [WaitPc.locksMutex]⟩
    · rw [hcv]
      exact hcause
    · simp [hT.removed, hcv, hnot]
  · intro x hx g'
    rw [hpc]
    simp [Ne.symm hx]

theorem expire_waits (h : Waits s L) {v : τ} (hst : s.stopped v = true) :
    Waits (wakeup s v .timeout).1 L := by
  have hs' : (wakeup s v .timeout).1 = { s with
      stopped := Function.update s.stopped v false
      cause := Function.update s.cause v (some .timeout) } := by
    simp [wakeup, hst]
  rw [hs']
  refine ⟨h.locks,h.rings,fun u => ?_,h.call,h.inRing,h.fresh,h.order,h.once,h.returned⟩
  have hkeep : ∀ c, KeepsTaken s { s with
      stopped := Function.update s.stopped v false
      cause := Function.update s.cause v (some .timeout) } c := by
    intro c
    refine ⟨fun w r hT => hT.frame rfl rfl,fun w r hT hun => ?_,fun w r k hT hk => ?_⟩
    · by_cases hv : r.thread = v
      · exact Or.inr ⟨by simp [hv],by simp [hv]⟩
      · exact hun.frame (Function.update_of_ne hv _ _) (Function.update_of_ne hv _ _)
    · -- A thread that has a cause is not STOPPED.
      have hv : r.thread≠v := by
        rintro rfl
        obtain ⟨f,-,-,-,hok,-⟩ := h.taken_call hT
        rcases hok with ⟨-,hun,-⟩ | ⟨-,-,hs,-⟩ | ⟨-,hset⟩
        · cases hun with
          | inl hun => simp [hun.2] at hk
          | inr hun => simp [hun.1] at hst
        · simp [hs] at hst
        · simp [hset.1] at hst
      rw [← hk]
      exact Function.update_of_ne hv _ _
  by_cases huv : u = v
  · subst huv
    cases hpc : s.pc u with
    | wait q f =>
      obtain ⟨r,hr,hrt,hok,hm,hnew⟩ := hpc ▸ h.thread u
      refine ⟨r,hr,hrt,?_,hm,hnew⟩
      cases q with
      | asleep =>
        rcases hok with ⟨hsig,-,-⟩ | ⟨-,-,hs,-⟩ | ⟨-,hset⟩
        · exact Or.inl ⟨hsig,Or.inr ⟨by simp,by simp⟩,fun _ => Or.inr (by simp)⟩
        · simp [hs] at hst
        · simp [hset.1] at hst
      | _ => exact absurd hok.1 (by simp [hst])
    | signal q g =>
      have := hpc ▸ h.thread u
      exact SignalOk.frame this (fun _ => rfl) fun _ => hkeep g.cv
    | _ => trivial
  · exact (h.thread u).frame (Function.update_of_ne huv _ _) (Function.update_of_ne huv _ _)
      (fun q f _ => ⟨rfl,Iff.rfl,id,id,fun _ => id⟩) fun q g _ _ => ⟨rfl,hkeep g.cv⟩

end TinyOS.CC
