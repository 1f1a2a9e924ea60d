import TinyOS.CC.Waitset

/-! The invariant of the condition variables: who holds which lock, and what each call of
cv_wait and Cond_Signal relies on. -/
namespace TinyOS.CC
open RList Ring
variable {τ κ μ : Type*} [DecidableEq τ] [DecidableEq κ] [DecidableEq μ]

def WaitPc.locksWaitset : WaitPc → Bool
  | .push | .unlock | .sleep | .tidy | .release => true
  | .lock | .asleep | .relock => false

def WaitPc.locksMutex : WaitPc → Bool
  | .lock | .push | .unlock => true
  | _ => false

def SignalPc.locksWaitset : SignalPc → Bool
  | .lock => false
  | _ => true

def Lock.kernel : Lock κ μ → Bool
  | .waitset _ | .mutex .kernelMutex => true
  | .mutex (.other _) => false

def Pc.locks : Pc κ μ → Lock κ μ → Bool
  | .wait q f, .waitset c => q.locksWaitset && decide (f.cv = c)
  | .wait q f, .mutex m => q.locksMutex && decide (f.mutex = m)
  | .signal q g, .waitset c => q.locksWaitset && decide (g.cv = c)
  | .signal _ g, .mutex .kernelMutex => g.back.isSome
  | .test _, .mutex .kernelMutex | .leave _, .mutex .kernelMutex | .incr _, .mutex .kernelMutex
  | .unlock, .mutex .kernelMutex | .sleep _, .mutex .kernelMutex => true
  | _, _ => false

def Locks (pc : τ → Pc κ μ) (held : Lock κ μ → Option τ) : Prop :=
  ∀ x t, x.kernel = true → (held x = some t ↔ (pc t).locks x = true)

section Locks
variable {pc : τ → Pc κ μ} {held : Lock κ μ → Option τ} {t : τ} {p : Pc κ μ} {x : Lock κ μ}

theorem Locks.same (h : Locks pc held) (hp : ∀ y, y.kernel = true → p.locks y = (pc t).locks y) :
    Locks (Function.update pc t p) held := by
  intro y u hy
  rw [h y u hy]
  by_cases hu : u = t
  · subst hu
    rw [Function.update_self, hp y hy]
  · rw [Function.update_of_ne hu]

theorem Locks.acquire (h : Locks pc held) (hx : held x = none)
    (hp : ∀ y, y.kernel = true → p.locks y = (decide (y = x) || (pc t).locks y)) :
    Locks (Function.update pc t p) (Function.update held x (some t)) := by
  intro y u hy
  by_cases hyx : y = x
  · subst hyx
    rw [Function.update_self]
    by_cases hu : u = t
    · subst hu
      simp [hp y hy]
    · rw [Function.update_of_ne hu, ← h y u hy, hx]
      simp [Ne.symm hu]
  · rw [Function.update_of_ne hyx, h y u hy]
    by_cases hu : u = t
    · subst hu
      simp [hp y hy, hyx]
    · rw [Function.update_of_ne hu]

theorem Locks.release (h : Locks pc held) (hx : x.kernel = true → (pc t).locks x = true)
    (hp : ∀ y, y.kernel = true → p.locks y = (decide (y≠x) && (pc t).locks y)) :
    Locks (Function.update pc t p) (Function.update held x none) := by
  intro y u hy
  by_cases hyx : y = x
  · subst hyx
    rw [Function.update_self]
    by_cases hu : u = t
    · subst hu
      simp [hp y hy]
    · have ht := (h y t hy).mpr (hx hy)
      rw [Function.update_of_ne hu, ← h y u hy, ht]
      simp [Ne.symm hu]
  · rw [Function.update_of_ne hyx, h y u hy]
    by_cases hu : u = t
    · subst hu
      simp [hp y hy, hyx]
    · rw [Function.update_of_ne hu]

omit [DecidableEq τ] in
theorem Locks.unique (h : Locks pc held) {u : τ} (hx : x.kernel = true)
    (ht : (pc t).locks x = true) (hu : (pc u).locks x = true) : t = u := by
  have := ((h x t hx).mpr ht).symm.trans ((h x u hx).mpr hu)
  exact Option.some.inj this

omit [DecidableEq τ] in
theorem Locks.not_locks (h : Locks pc held) (hx : x.kernel = true) (hn : held x = none) (u : τ) :
    (pc u).locks x = false := by
  by_contra hl
  have := (h x u hx).mpr (by simpa using hl)
  rw [hn] at this
  cases this

end Locks

/-- Thread u is about to wake, or to mark, the waiter w. -/
def Waking (s : State τ κ μ) (w : WaiterRef) : Prop := ∃ u g, s.pc u = .signal (.wake w) g

def Marking (s : State τ κ μ) (w : WaiterRef) : Prop := ∃ u g, s.pc u = .signal (.mark w) g

def Unsignalled (s : State τ κ μ) (t : τ) : Prop :=
  s.stopped t = true ∧ s.cause t = none ∨ s.stopped t = false ∧ s.cause t = some .timeout

def Settled (s : State τ κ μ) (t : τ) (c : CondVar κ) (r : Waiter τ) : Prop :=
  s.stopped t = false ∧ (r.removed = true ∧ r.signalled = true ∧ s.cause t = some (.signal c) ∨
    r.signalled = false ∧ s.cause t = some .timeout)

def WaitOk (s : State τ κ μ) (t : τ) (c : CondVar κ) (w : WaiterRef) (r : Waiter τ) : WaitPc → Prop
  | .lock | .push | .unlock | .sleep =>
    s.stopped t = false ∧ r.removed = false ∧ r.signalled = false
  | .asleep =>
    r.signalled = false ∧ Unsignalled s t ∧ (r.removed = true → Waking s w ∨ s.stopped t = false) ∨
    r.signalled = false ∧ r.removed = true ∧ s.stopped t = false ∧ s.cause t = some (.signal c) ∧ Marking s w ∨
    r.removed = true ∧ Settled s t c r
  | .tidy | .release | .relock => Settled s t c r

/-- The waiter w of a call on c that sleeps or has been woken, taken out of the ring. -/
structure Taken (s : State τ κ μ) (c : CondVar κ) (w : WaiterRef) (r : Waiter τ) : Prop where
  call : ∃ f, s.pc r.thread = .wait .asleep f ∧ f.waiter = w ∧ f.cv = c
  waiter : s.waiters w = some r
  removed : r.removed = true

/-- A call of Cond_Signal has seen the waiters in front of rest. -/
structure SeenOk (s : State τ κ μ) (g : Signal κ) (rest : List WaiterRef) : Prop where
  start : g.start = g.seen.map Prod.fst++rest
  seen : ∀ x∈g.seen, ∃ r, Taken s g.cv x.1 r ∧ r.signalled = x.2 ∧
    s.cause r.thread = some (if x.2 then .signal g.cv else .timeout)

def SignalOk (s : State τ κ μ) (L : CondVar κ → List WaiterRef) (g : Signal κ) : SignalPc → Prop
  | .lock => g.seen = []
  | .test => SeenOk s g (L g.cv) ∧ (g.broadcast = false → ∀ x∈g.seen, x.2 = false)
  | .wake w => SeenOk s g (w::L g.cv) ∧ (g.broadcast = false → ∀ x∈g.seen, x.2 = false) ∧
    ∃ r, Taken s g.cv w r ∧ r.signalled = false ∧ Unsignalled s r.thread
  | .mark w => SeenOk s g (w::L g.cv) ∧ (g.broadcast = false → ∀ x∈g.seen, x.2 = false) ∧
    ∃ r, Taken s g.cv w r ∧ r.signalled = false ∧ s.cause r.thread = some (.signal g.cv)
  | .release => SeenOk s g (L g.cv) ∧
    (L g.cv = [] ∧ (g.broadcast = false → ∀ x∈g.seen, x.2 = false) ∨
      g.broadcast = false ∧ ∃ xs w, g.seen = xs++[(w,true)] ∧ ∀ x∈xs, x.2 = false)

def ThreadOk (s : State τ κ μ) (L : CondVar κ → List WaiterRef) (t : τ) : Pc κ μ → Prop
  | .wait q f => ∃ r, s.waiters f.waiter = some r ∧ r.thread = t ∧ WaitOk s t f.cv f.waiter r q ∧
    (f.waiter∈L f.cv ↔ q.queued = true ∧ r.removed = false) ∧
    (q.locksMutex = true → q≠.unlock → ∀ c, f.waiter∉s.arrivals c)
  | .signal q g => SignalOk s L g q
  | _ => True

structure Waits (s : State τ κ μ) (L : CondVar κ → List WaiterRef) : Prop where
  locks : Locks s.pc s.held
  rings : Rings s.heap s.waitset L
  thread : ∀ t, ThreadOk s L t (s.pc t)
  call : ∀ w r, s.waiters w = some r → ∃ q f, s.pc r.thread = .wait q f ∧ f.waiter = w
  inRing : ∀ c, ∀ w∈L c, ∃ r q f, s.waiters w = some r ∧ s.pc r.thread = .wait q f ∧ f.waiter = w ∧
    f.cv = c
  fresh : ∀ w, s.next≤w → s.waiters w = none ∧ ∀ c, w∉s.arrivals c
  order : ∀ c, (L c).Sublist (s.arrivals c)
  once : ∀ c, (s.arrivals c).Nodup
  returned : ∀ x∈s.returns, x.ret = true ↔ x.cause = some (.signal x.cv)

section Frame
omit [DecidableEq τ] [DecidableEq κ] [DecidableEq μ]
variable {s s' : State τ κ μ} {L L' : CondVar κ → List WaiterRef} {t u : τ} {p : Pc κ μ}
variable {c : CondVar κ} {w : WaiterRef} {r : Waiter τ}

theorem Taken.frame (h : Taken s c w r) (hpc : s'.pc r.thread = s.pc r.thread)
    (hw : s'.waiters w = s.waiters w) : Taken s' c w r :=
  ⟨by rw [hpc]; exact h.call,hw.trans h.waiter,h.removed⟩

theorem Unsignalled.frame (h : Unsignalled s t) (hst : s'.stopped t = s.stopped t)
    (hca : s'.cause t = s.cause t) : Unsignalled s' t := by
  simpa only [Unsignalled, hst, hca] using h

structure KeepsTaken (s s' : State τ κ μ) (c : CondVar κ) : Prop where
  taken : ∀ w r, Taken s c w r → Taken s' c w r
  unsignalled : ∀ w r, Taken s c w r → Unsignalled s r.thread → Unsignalled s' r.thread
  cause : ∀ w r k, Taken s c w r → s.cause r.thread = some k → s'.cause r.thread = some k

theorem SeenOk.frame {g : Signal κ} {rest : List WaiterRef} (h : SeenOk s g rest)
    (hk : KeepsTaken s s' g.cv) : SeenOk s' g rest := by
  refine ⟨h.start,fun x hx => ?_⟩
  obtain ⟨r,ht,hs,hc⟩ := h.seen x hx
  exact ⟨r,hk.taken _ r ht,hs,hk.cause _ r _ ht hc⟩

theorem SignalOk.frame {g : Signal κ} {q : SignalPc} (h : SignalOk s L g q)
    (hL : q.locksWaitset = true → L' g.cv = L g.cv)
    (hk : q.locksWaitset = true → KeepsTaken s s' g.cv) : SignalOk s' L' g q := by
  cases q with
  | lock => exact h
  | test =>
    obtain ⟨hs,hb⟩ := h
    rw [SignalOk, hL rfl]
    exact ⟨hs.frame (hk rfl),hb⟩
  | wake w =>
    obtain ⟨hs,hb,r,ht,hsig,hun⟩ := h
    rw [SignalOk, hL rfl]
    exact ⟨hs.frame (hk rfl),hb,r,(hk rfl).taken w r ht,hsig,(hk rfl).unsignalled w r ht hun⟩
  | mark w =>
    obtain ⟨hs,hb,r,ht,hsig,hc⟩ := h
    rw [SignalOk, hL rfl]
    exact ⟨hs.frame (hk rfl),hb,r,(hk rfl).taken w r ht,hsig,(hk rfl).cause w r _ ht hc⟩
  | release =>
    obtain ⟨hs,hb⟩ := h
    rw [SignalOk, hL rfl]
    exact ⟨hs.frame (hk rfl),hb⟩

theorem WaitOk.frame {q : WaitPc} (h : WaitOk s t c w r q) (hst : s'.stopped t = s.stopped t)
    (hca : s'.cause t = s.cause t) (hwk : Waking s w → Waking s' w)
    (hmk : Marking s w → Marking s' w) : WaitOk s' t c w r q := by
  cases q with
  | asleep =>
    simp only [WaitOk, Unsignalled, Settled, hst, hca] at h ⊢
    cases h with
    | inl h => exact Or.inl ⟨h.1,h.2.1,fun hr => (h.2.2 hr).imp_left hwk⟩
    | inr h =>
      cases h with
      | inl h => exact Or.inr (Or.inl ⟨h.1,h.2.1,h.2.2.1,h.2.2.2.1,hmk h.2.2.2.2⟩)
      | inr h => exact Or.inr (Or.inr h)
  | _ => simpa only [WaitOk, Settled, hst, hca] using h

theorem ThreadOk.frame (h : ThreadOk s L u p) (hst : s'.stopped u = s.stopped u)
    (hca : s'.cause u = s.cause u)
    (hwait : ∀ q f, p = .wait q f → s'.waiters f.waiter = s.waiters f.waiter ∧
      (f.waiter∈L' f.cv ↔ f.waiter∈L f.cv) ∧ (Waking s f.waiter → Waking s' f.waiter) ∧
      (Marking s f.waiter → Marking s' f.waiter) ∧
      ∀ c, f.waiter∈s'.arrivals c → f.waiter∈s.arrivals c)
    (hsig : ∀ q g, p = .signal q g → q.locksWaitset = true →
      L' g.cv = L g.cv ∧ KeepsTaken s s' g.cv) : ThreadOk s' L' u p := by
  cases p with
  | wait q f =>
    obtain ⟨hw,hL,hwk,hmk,harr⟩ := hwait q f rfl
    obtain ⟨r,hr,hrt,hok,hm,hnew⟩ := h
    exact ⟨r,hw.trans hr,hrt,hok.frame hst hca hwk hmk,hL.trans hm,
      fun h1 h2 c hc => hnew h1 h2 c (harr c hc)⟩
  | signal q g =>
    exact SignalOk.frame h (fun hq => (hsig q g rfl hq).1) fun hq => (hsig q g rfl hq).2
  | _ => trivial

variable [DecidableEq τ]

theorem Waking.goto (h : Waking s w) (hpc : s'.pc = Function.update s.pc t p)
    (ht : ∀ g, s.pc t≠.signal (.wake w) g) : Waking s' w := by
  obtain ⟨u,g,hu⟩ := h
  have hut : u≠t := by
    rintro rfl
    exact ht g hu
  exact ⟨u,g,by rw [hpc, Function.update_of_ne hut, hu]⟩

theorem Marking.goto (h : Marking s w) (hpc : s'.pc = Function.update s.pc t p)
    (ht : ∀ g, s.pc t≠.signal (.mark w) g) : Marking s' w := by
  obtain ⟨u,g,hu⟩ := h
  have hut : u≠t := by
    rintro rfl
    exact ht g hu
  exact ⟨u,g,by rw [hpc, Function.update_of_ne hut, hu]⟩

variable [DecidableEq κ] [DecidableEq μ]

omit [DecidableEq τ] in
/-- A signaller that has the lock of c keeps the threads of the waiters it has taken from
locking it. -/
theorem Waits.taken_ne (h : Waits s L) {q : SignalPc} {g : Signal κ} (hu : s.pc u = .signal q g)
    (hq : q.locksWaitset = true) (hT : Taken s g.cv w r) (ht : ∀ f, s.pc t = .wait .asleep f →
      s.held (.waitset f.cv) = none) : r.thread≠t := by
  rintro rfl
  obtain ⟨f,hf,-,hcv⟩ := hT.call
  have hl : (s.pc u).locks (.waitset f.cv) = true := by simp [hu, Pc.locks, hq, hcv]
  rw [h.locks.not_locks rfl (ht f hf)] at hl
  cases hl

structure Moves (s s' : State τ κ μ) (t : τ) (p : Pc κ μ) : Prop where
  pc : s'.pc = Function.update s.pc t p
  waiters : s'.waiters = s.waiters
  heap : s'.heap = s.heap
  waitset : s'.waitset = s.waitset
  arrivals : s'.arrivals = s.arrivals
  next : s'.next = s.next
  returns : s'.returns = s.returns
  stopped : ∀ u, u≠t → s'.stopped u = s.stopped u
  cause : ∀ u, u≠t → s'.cause u = s.cause u

theorem Waits.moves (h : Waits s L) (hm : Moves s s' t p) (hlocks : Locks s'.pc s'.held)
    (hok : ThreadOk s' L t p)
    (hwake : ∀ w g, s.pc t≠.signal (.wake w) g ∧ s.pc t≠.signal (.mark w) g)
    (hcall : ∀ q f, s.pc t = .wait q f → ∃ q', p = .wait q' f)
    (hasleep : ∀ f, s.pc t = .wait .asleep f → s.held (.waitset f.cv) = none) : Waits s' L := by
  have hpc : ∀ u, u≠t → s'.pc u = s.pc u := fun u hu => by rw [hm.pc, Function.update_of_ne hu]
  have hframe : ∀ r q f, s.pc r = .wait q f → ∃ q', s'.pc r = .wait q' f := by
    intro r q f hr
    by_cases hrt : r = t
    · subst hrt
      rw [hm.pc, Function.update_self]
      exact hcall q f hr
    · exact ⟨q,by rw [hpc r hrt, hr]⟩
  refine ⟨hlocks,by rw [hm.heap, hm.waitset]; exact h.rings,fun u => ?_,fun w r hr => ?_,
    fun c w hw => ?_,by rw [hm.next, hm.waiters, hm.arrivals]; exact h.fresh,
    by rw [hm.arrivals]; exact h.order,by rw [hm.arrivals]; exact h.once,
    by rw [hm.returns]; exact h.returned⟩
  · by_cases hu : u = t
    · subst hu
      rw [hm.pc, Function.update_self]
      exact hok
    · rw [hpc u hu]
      refine (h.thread u).frame (hm.stopped u hu) (hm.cause u hu) (fun q f _ => ?_)
        fun q g hg hq => ?_
      · exact ⟨by rw [hm.waiters],Iff.rfl,fun hk => hk.goto hm.pc fun g => (hwake _ g).1,
          fun hk => hk.goto hm.pc fun g => (hwake _ g).2,by rw [hm.arrivals]; exact fun _ => id⟩
      · have hne : ∀ w r, Taken s g.cv w r → r.thread≠t := fun w r hT =>
          h.taken_ne hg hq hT hasleep
        refine ⟨rfl,fun w r hT => hT.frame (hpc _ (hne w r hT)) (by rw [hm.waiters]),
          fun w r hT hun => ?_,fun w r k hT hk => ?_⟩
        · exact hun.frame (hm.stopped _ (hne w r hT)) (hm.cause _ (hne w r hT))
        · rw [hm.cause _ (hne w r hT), hk]
  · rw [hm.waiters] at hr
    obtain ⟨q,f,hq,hf⟩ := h.call w r hr
    obtain ⟨q',hq'⟩ := hframe r.thread q f hq
    exact ⟨q',f,hq',hf⟩
  · obtain ⟨r,q,f,hr,hq,hf,hcv⟩ := h.inRing c w hw
    obtain ⟨q',hq'⟩ := hframe r.thread q f hq
    exact ⟨r,q',f,by rw [hm.waiters, hr],hq',hf,hcv⟩

end Frame

end TinyOS.CC
