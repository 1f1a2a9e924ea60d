import TinyOS.Lib.Transition
import TinyOS.Util.RList

/-! The condition variables and the kernel lock of kernel_cc.c, with one step for each
access to shared memory. A section under sched_spinlock is one step, and so is a
successful test-and-set of Mutex_Lock; a thread that spins makes no step. -/
namespace TinyOS.CC
open RList

inductive CondVar (κ : Type*) where
  | kernelSemCv
  | other (c : κ)
  deriving DecidableEq

inductive Mutex (μ : Type*) where
  | kernelMutex
  | other (m : μ)
  deriving DecidableEq

inductive Lock (κ μ : Type*) where
  | mutex (m : Mutex μ)
  | waitset (c : CondVar κ)
  deriving DecidableEq

/-- The address of a waiter. Each call of cv_wait has a new one. -/
abbrev WaiterRef := Nat

structure Waiter (τ : Type*) where
  thread : τ
  signalled : Bool
  removed : Bool

/-- What cv_wait returns to: Cond_Wait of the user, the loop on kernel_sem, where ret is
what kernel_wait_wchan returns after it, or kernel_wait_wchan before that loop. -/
inductive WaitBack where
  | user
  | loop (ret : Option Bool)
  | kernelWait
  deriving DecidableEq

structure Wait (κ μ : Type*) where
  mutex : Mutex μ
  cv : CondVar κ
  timed : Bool
  waiter : WaiterRef
  back : WaitBack
  deriving DecidableEq

inductive WaitPc where
  | lock | push | unlock | sleep | asleep | tidy | release | relock
  deriving DecidableEq

inductive Release (κ : Type*) where
  | kernelUnlock
  | kernelWait (cv : CondVar κ) (timed : Bool)
  | kernelSleep (exited : Bool)
  deriving DecidableEq

/-- A call of Cond_Signal or Cond_Broadcast, by the user or on behalf of back. The ring
when it took the lock and the waiters it has seen, with whether it woke them, are kept
for the proofs. -/
structure Signal (κ : Type*) where
  cv : CondVar κ
  broadcast : Bool
  back : Option (Release κ)
  start : List WaiterRef
  seen : List (WaiterRef × Bool)
  deriving DecidableEq

inductive SignalPc where
  | lock
  /-- while(cv->waitset) -/
  | test
  | wake (w : WaiterRef)
  | mark (w : WaiterRef)
  | release
  deriving DecidableEq

inductive Pc (κ μ : Type*) where
  | user
  | wait (q : WaitPc) (f : Wait κ μ)
  | signal (q : SignalPc) (g : Signal κ)
  /-- Mutex_Lock of kernel_lock. -/
  | enter
  /-- while(kernel_sem<=0) -/
  | test (ret : Option Bool)
  /-- Mutex_Unlock behind kernel_sem--. -/
  | leave (ret : Option Bool)
  /-- Mutex_Lock in front of kernel_sem++. -/
  | giveUp (k : Release κ)
  | incr (k : Release κ)
  /-- Mutex_Unlock of kernel_unlock. -/
  | unlock
  /-- sleep_releasing of kernel_sleep. -/
  | sleep (exited : Bool)
  | exited
  deriving DecidableEq

inductive Cause (κ : Type*) where
  | signal (c : CondVar κ)
  | timeout
  deriving DecidableEq

structure Return (τ κ : Type*) where
  thread : τ
  cv : CondVar κ
  ret : Bool
  cause : Option (Cause κ)

structure State (τ κ μ : Type*) where
  pc : τ → Pc κ μ
  held : Lock κ μ → Option τ
  waitset : CondVar κ → Option WaiterRef
  heap : Heap WaiterRef WaiterRef
  /-- The waiters on the stacks of the calls in progress. -/
  waiters : WaiterRef → Option (Waiter τ)
  next : WaiterRef
  kernelSem : Int
  /-- The thread is STOPPED. -/
  stopped : τ → Bool
  timed : τ → Bool
  /-- For the proofs: the waiters pushed so far, the threads that hold the kernel, what
  moved each thread out of STOPPED last, and the cv_waits that have returned. -/
  arrivals : CondVar κ → List WaiterRef
  inside : τ → Bool
  cause : τ → Option (Cause κ)
  returns : List (Return τ κ)

section
variable {τ κ μ : Type*} [DecidableEq τ] [DecidableEq κ] [DecidableEq μ]

def State.goto (s : State τ κ μ) (t : τ) (pc : Pc κ μ) : State τ κ μ :=
  { s with pc := Function.update s.pc t pc }

def State.mutexLock (s : State τ κ μ) (t : τ) (x : Lock κ μ) : State τ κ μ :=
  { s with held := Function.update s.held x (some t) }

def State.mutexUnlock (s : State τ κ μ) (x : Lock κ μ) : State τ κ μ :=
  { s with held := Function.update s.held x none }

def State.setWaiter (s : State τ κ μ) (w : WaiterRef) (r : Option (Waiter τ)) : State τ κ μ :=
  { s with waiters := Function.update s.waiters w r }

def beginWait (s : State τ κ μ) (t : τ) (mutex : Mutex μ) (cv : CondVar κ) (timed : Bool)
    (back : WaitBack) : State τ κ μ :=
  { (s.setWaiter s.next (some ⟨t,false,false⟩)).goto t
    (.wait .lock ⟨mutex,cv,timed,s.next,back⟩) with
    heap := rlnodeInit s.heap s.next s.next
    next := s.next+1 }

def beginSignal (s : State τ κ μ) (t : τ) (cv : CondVar κ) (broadcast : Bool)
    (back : Option (Release κ)) : State τ κ μ :=
  s.goto t (.signal .lock ⟨cv,broadcast,back,[],[]⟩)

def WaitPc.queued : WaitPc → Bool
  | .unlock | .sleep | .asleep | .tidy => true
  | .lock | .push | .release | .relock => false

/-- The waiter w is of a cv_wait on cv between its push and its tidying up, and not
marked removed. -/
def State.queued (s : State τ κ μ) (cv : CondVar κ) (w : WaiterRef) : Bool :=
  match s.waiters w with
  | none => false
  | some r => match s.pc r.thread with
    | .wait q f => q.queued && !r.removed && decide (f.waiter = w) && decide (f.cv = cv)
    | _ => false

def State.queue (s : State τ κ μ) (cv : CondVar κ) : List WaiterRef :=
  (s.arrivals cv).filter (s.queued cv)

/-- The waiters whose memory an operation on the node of w touches are there. -/
def State.touches (s : State τ κ μ) (w : WaiterRef) : Bool :=
  (s.waiters w).isSome && (s.waiters (s.heap.next w)).isSome && (s.waiters (s.heap.prev w)).isSome

def pushWaiter (s : State τ κ μ) (cv : CondVar κ) (w : WaiterRef) : Option (State τ κ μ) :=
  match s.waitset cv with
  | none => some { s with waitset := Function.update s.waitset cv (some w) }
  | some wset =>
    if s.touches wset && s.touches w then some { s with heap := rlistPushBack s.heap wset w } else
      none

def removeFromRing (s : State τ κ μ) (cv : CondVar κ) (w : WaiterRef) : Option (State τ κ μ) :=
  if s.touches w then
    let nextw := s.heap.key (s.heap.next w)
    some { s with
      waitset := if s.waitset cv = some w then
        Function.update s.waitset cv (if nextw = w then none else some nextw) else s.waitset
      heap := rlistRemove s.heap w }
  else none

/-- The tidying up of cv_wait, with its assertion. -/
def tidyUp (s : State τ κ μ) (f : Wait κ μ) : Option (State τ κ μ) :=
  (s.waiters f.waiter).bind fun r =>
    if r.removed then some s
    else if r.signalled then none
    else removeFromRing s f.cv f.waiter

def WaitBack.pc (signalled : Bool) : WaitBack → Pc κ μ
  | .user => .user
  | .loop ret => .test ret
  | .kernelWait => .test (some signalled)

def endWait (s : State τ κ μ) (t : τ) (f : Wait κ μ) : Option (State τ κ μ) :=
  (s.waiters f.waiter).map fun r =>
    { (s.setWaiter f.waiter none).goto t (f.back.pc r.signalled) with
      returns := s.returns++[⟨t,f.cv,r.signalled,s.cause t⟩] }

/-- wakeup: the thread leaves STOPPED if it is in it. -/
def wakeup (s : State τ κ μ) (t : τ) (c : Cause κ) : State τ κ μ × Bool :=
  if s.stopped t then
    ({ s with stopped := Function.update s.stopped t false
              cause := Function.update s.cause t (some c) },true)
  else (s,false)

/-- sleep_releasing up to its yield. -/
def sleepReleasing (s : State τ κ μ) (t : τ) (x : Lock κ μ) (timed : Bool) : State τ κ μ :=
  { s.mutexUnlock x with
    stopped := Function.update s.stopped t true
    timed := Function.update s.timed t timed
    cause := Function.update s.cause t none }

def runWait (s : State τ κ μ) (t : τ) (f : Wait κ μ) : WaitPc → Option (State τ κ μ)
  | .lock => some ((s.mutexLock t (.waitset f.cv)).goto t (.wait .push f))
  | .push => (pushWaiter s f.cv f.waiter).map fun s =>
    { s.goto t (.wait .unlock f) with
      arrivals := Function.update s.arrivals f.cv (s.arrivals f.cv++[f.waiter]) }
  | .unlock => some ((s.mutexUnlock (.mutex f.mutex)).goto t (.wait .sleep f))
  | .sleep => some ((sleepReleasing s t (.waitset f.cv) f.timed).goto t (.wait .asleep f))
  | .asleep => some ((s.mutexLock t (.waitset f.cv)).goto t (.wait .tidy f))
  | .tidy => (tidyUp s f).map fun s => s.goto t (.wait .release f)
  | .release => some ((s.mutexUnlock (.waitset f.cv)).goto t (.wait .relock f))
  | .relock => endWait (s.mutexLock t (.mutex f.mutex)) t f

/-- The return of Cond_Signal. -/
def endSignal (s : State τ κ μ) (t : τ) : Option (Release κ) → State τ κ μ
  | none => s.goto t .user
  | some .kernelUnlock => s.goto t .unlock
  | some (.kernelWait cv timed) => beginWait s t .kernelMutex cv timed .kernelWait
  | some (.kernelSleep exited) => s.goto t (.sleep exited)

/-- cv_signal, and the loop of Cond_Broadcast around it. -/
def runSignal (s : State τ κ μ) (t : τ) (g : Signal κ) : SignalPc → Option (State τ κ μ)
  | .lock => some ((s.mutexLock t (.waitset g.cv)).goto t
      (.signal .test { g with start := s.queue g.cv }))
  | .test => match s.waitset g.cv with
    | none => some (s.goto t (.signal .release g))
    | some w => (removeFromRing s g.cv w).bind fun s =>
      (s.waiters w).map fun r =>
        (s.setWaiter w (some { r with removed := true })).goto t (.signal (.wake w) g)
  | .wake w => (s.waiters w).map fun r =>
    let (s,woken) := wakeup s r.thread (.signal g.cv)
    s.goto t (if woken then .signal (.mark w) g
      else .signal .test { g with seen := g.seen++[(w,false)] })
  | .mark w => (s.waiters w).map fun r =>
    (s.setWaiter w (some { r with signalled := true })).goto t
      (.signal (if g.broadcast then .test else .release) { g with seen := g.seen++[(w,true)] })
  | .release => some (endSignal (s.mutexUnlock (.waitset g.cv)) t g.back)

def runThread (s : State τ κ μ) (t : τ) : Pc κ μ → Option (State τ κ μ)
  | .user => none
  | .exited => none
  | .wait q f => runWait s t f q
  | .signal q g => runSignal s t g q
  | .enter => some ((s.mutexLock t (.mutex .kernelMutex)).goto t (.test none))
  | .test ret =>
    if s.kernelSem≤0 then some (beginWait s t .kernelMutex .kernelSemCv false (.loop ret))
    else some ({ s with kernelSem := s.kernelSem-1
                        inside := Function.update s.inside t true }.goto t (.leave ret))
  | .leave _ => some ((s.mutexUnlock (.mutex .kernelMutex)).goto t .user)
  | .giveUp k => some ((s.mutexLock t (.mutex .kernelMutex)).goto t (.incr k))
  | .incr k => some (beginSignal { s with kernelSem := s.kernelSem+1
                                          inside := Function.update s.inside t false }
      t .kernelSemCv false (some k))
  | .unlock => some ((s.mutexUnlock (.mutex .kernelMutex)).goto t .user)
  | .sleep exited =>
    if exited then some ((s.mutexUnlock (.mutex .kernelMutex)).goto t .exited)
    else some ((sleepReleasing s t (.mutex .kernelMutex) false).goto t .user)

inductive Call (κ μ : Type*) where
  | mutexLock (m : μ)
  | mutexUnlock (m : μ)
  | condWait (m : μ) (c : κ)
  | condTimedWait (m : μ) (c : κ)
  | condSignal (c : κ)
  | condBroadcast (c : κ)
  | kernelLock
  | kernelUnlock
  | kernelWait (c : κ) (timed : Bool)
  | kernelSleep (exited : Bool)
  deriving DecidableEq

def call (s : State τ κ μ) (t : τ) : Call κ μ → State τ κ μ
  | .mutexLock m => s.mutexLock t (.mutex (.other m))
  | .mutexUnlock m => s.mutexUnlock (.mutex (.other m))
  | .condWait m c => beginWait s t (.other m) (.other c) false .user
  | .condTimedWait m c => beginWait s t (.other m) (.other c) true .user
  | .condSignal c => beginSignal s t (.other c) false none
  | .condBroadcast c => beginSignal s t (.other c) true none
  | .kernelLock => s.goto t .enter
  | .kernelUnlock => s.goto t (.giveUp .kernelUnlock)
  | .kernelWait c timed => s.goto t (.giveUp (.kernelWait (.other c) timed))
  | .kernelSleep exited => s.goto t (.giveUp (.kernelSleep exited))

inductive Label (τ κ μ : Type*) where
  | call (t : τ) (c : Call κ μ)
  | run (t : τ)
  /-- The timeout of a STOPPED thread expires. -/
  | expire (t : τ)
  deriving DecidableEq

def Pc.wants : Pc κ μ → Option (Lock κ μ)
  | .wait .lock f | .wait .asleep f => some (.waitset f.cv)
  | .wait .relock f => some (.mutex f.mutex)
  | .signal .lock g => some (.waitset g.cv)
  | .enter | .giveUp _ => some (.mutex .kernelMutex)
  | _ => none

def Pc.runs : Pc κ μ → Bool
  | .user | .exited => false
  | _ => true

/-- Only a thread that holds the kernel gives it up. -/
def CallOk (s : State τ κ μ) (t : τ) : Call κ μ → Prop
  | .mutexLock m => s.held (.mutex (.other m)) = none
  | .kernelUnlock | .kernelWait _ _ | .kernelSleep _ => s.inside t = true
  | _ => True

def Enabled (s : State τ κ μ) : Label τ κ μ → Prop
  | .call t c => s.pc t = .user ∧ s.stopped t = false ∧ CallOk s t c
  | .run t => (s.pc t).runs = true ∧ s.stopped t = false ∧ ((s.pc t).wants.bind s.held) = none
  | .expire t => s.stopped t = true ∧ s.timed t = true

def exec (s : State τ κ μ) : Label τ κ μ → Option (State τ κ μ)
  | .call t c => some (call s t c)
  | .run t => runThread s t (s.pc t)
  | .expire t => some (wakeup s t .timeout).1

instance (s : State τ κ μ) (t : τ) (c : Call κ μ) : Decidable (CallOk s t c) :=
  match c with
  | .mutexLock m => inferInstanceAs (Decidable (s.held (.mutex (.other m)) = none))
  | .kernelUnlock | .kernelWait _ _ | .kernelSleep _ => inferInstanceAs
      (Decidable (s.inside t = true))
  | .mutexUnlock _ | .condWait _ _ | .condTimedWait _ _ | .condSignal _ | .condBroadcast _
  | .kernelLock => inferInstanceAs (Decidable True)

instance (s : State τ κ μ) (a : Label τ κ μ) : Decidable (Enabled s a) :=
  match a with
  | .call t c => inferInstanceAs (Decidable (s.pc t = .user ∧ s.stopped t = false ∧ CallOk s t c))
  | .run t => inferInstanceAs
    (Decidable ((s.pc t).runs = true ∧ s.stopped t = false ∧ ((s.pc t).wants.bind s.held) = none))
  | .expire t => inferInstanceAs (Decidable (s.stopped t = true ∧ s.timed t = true))

def boot : State τ κ μ where
  pc _ := .user
  held _ := none
  waitset _ := none
  heap := ⟨id,id,id⟩
  waiters _ := none
  next := 0
  kernelSem := 1
  stopped _ := false
  timed _ := false
  arrivals _ := []
  inside _ := false
  cause _ := none
  returns := []

variable (τ κ μ)

def system : Transition.System (State τ κ μ) (Label τ κ μ) where
  init s := s = boot
  next s a := if Enabled s a then exec s a else none

end
end TinyOS.CC
