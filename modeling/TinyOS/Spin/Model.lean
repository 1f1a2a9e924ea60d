import Mathlib.Logic.Function.Basic
import TinyOS.Lib.Transition

/-! Mutex_Lock under preemption. The functions of kernel_cc.c, kernel_sched.c and
kernel_dev.c that take a mutex are lists of instructions, and a context is what it has
still to run; set_core_preemption is one step, and so is what is done under a mutex
between two of its calls. Interrupts come between any two steps with preemption on. -/
namespace TinyOS.Spin

inductive CondVar (π γ : Type*) where
  | kernelSemCv
  | rxReady (port : π)
  | other (c : γ)
  deriving DecidableEq

inductive Mutex (π γ μ : Type*) where
  | kernelMutex | schedSpinlock | activeThreadsSpinlock
  | waitsetLock (cv : CondVar π γ)
  | user (m : μ)
  deriving DecidableEq

inductive Ctx (κ τ : Type*) where
  | idle (c : κ)
  | normal (t : τ)
  deriving DecidableEq

inductive ThreadState where
  | INIT | READY | RUNNING | STOPPED | EXITED
  deriving DecidableEq

inductive Instr (κ τ π γ μ : Type*) where
  | lock (x : Mutex π γ μ)
  | unlock (x : Mutex π γ μ)
  /-- int pre = preempt_off -/
  | preemptOff
  /-- if(pre) preempt_on -/
  | restore
  /-- preempt_on -/
  | preemptOn
  /-- while(kernel_sem<=0) Cond_Wait(&kernel_mutex, &kernel_sem_cv) -/
  | testSem
  | decr | incr
  /-- The waiter of cv_wait goes to the back of the ring, and is taken out of it. -/
  | push (cv : CondVar π γ)
  | tidy (cv : CondVar π γ)
  /-- The loop of cv_signal, with that of Cond_Broadcast around it, and its end after wakeup. -/
  | signal (cv : CondVar π γ) (broadcast : Bool)
  | again (cv : CondVar π γ) (broadcast : Bool)
  /-- The section of wakeup. -/
  | makeReady (x : Ctx κ τ)
  /-- The section of sleep_releasing. -/
  | stop (exited timed : Bool)
  /-- The section of yield, the switch, and the section of gain. -/
  | select | switch | takeOver
  /-- The loop of serial_read. -/
  | poll (port : π)
  deriving DecidableEq

section
variable {κ τ π γ μ : Type*}

def wakeup (x : Ctx κ τ) : List (Instr κ τ π γ μ) :=
  [.preemptOff, .lock .schedSpinlock, .makeReady x, .unlock .schedSpinlock, .restore]

def gain : List (Instr κ τ π γ μ) :=
  [.lock .schedSpinlock, .takeOver, .unlock .schedSpinlock, .restore]

def yield : List (Instr κ τ π γ μ) :=
  [.preemptOff, .lock .schedSpinlock, .select, .unlock .schedSpinlock, .switch]++gain

def sleepReleasing (exited : Bool) (mx : Mutex π γ μ) (timed : Bool) : List (Instr κ τ π γ μ) :=
  [.preemptOff, .lock .schedSpinlock, .stop exited timed, .unlock mx, .unlock .schedSpinlock]++
    yield++[.restore]

def cvWait (mutex : Mutex π γ μ) (cv : CondVar π γ) (timed : Bool) : List (Instr κ τ π γ μ) :=
  [.lock (.waitsetLock cv), .push cv, .unlock mutex]++sleepReleasing false (.waitsetLock cv) timed++
    [.lock (.waitsetLock cv), .tidy cv, .unlock (.waitsetLock cv), .lock mutex]

def condSignal (cv : CondVar π γ) (broadcast : Bool) : List (Instr κ τ π γ μ) :=
  [.lock (.waitsetLock cv), .signal cv broadcast, .unlock (.waitsetLock cv)]

def kernelLock : List (Instr κ τ π γ μ) :=
  [.lock .kernelMutex, .testSem, .decr, .unlock .kernelMutex]

def kernelUnlock : List (Instr κ τ π γ μ) :=
  [.lock .kernelMutex, .incr]++condSignal .kernelSemCv false++[.unlock .kernelMutex]

def kernelWait (cv : CondVar π γ) (timed : Bool) : List (Instr κ τ π γ μ) :=
  [.lock .kernelMutex, .incr]++condSignal .kernelSemCv false++cvWait .kernelMutex cv timed++
    [.testSem, .decr, .unlock .kernelMutex]

def kernelSleep (exited : Bool) : List (Instr κ τ π γ μ) :=
  [.lock .kernelMutex, .incr]++condSignal .kernelSemCv false++sleepReleasing exited .kernelMutex false

/-- What spawn_thread and release_TCB do under active_threads_spinlock. -/
def countThread : List (Instr κ τ π γ μ) :=
  [.lock .activeThreadsSpinlock, .unlock .activeThreadsSpinlock]

def serialRead (port : π) : List (Instr κ τ π γ μ) := [.preemptOff, .poll port, .preemptOn]

def serialRxHandler (ports : List π) : List (Instr κ τ π γ μ) :=
  .preemptOff::ports.flatMap (fun p => condSignal (.rxReady p) true)++[.restore]

end

structure State (κ τ π γ μ : Type*) where
  held : Mutex π γ μ → Option (Ctx κ τ)
  code : Ctx κ τ → List (Instr κ τ π γ μ)
  /-- The values of preempt_off that wait to be restored, the last one first. -/
  saves : Ctx κ τ → List Bool
  cur : κ → Ctx κ τ
  prev : κ → Ctx κ τ
  preemption : κ → Bool
  /-- The context is saved, and no core has selected it. -/
  out : Ctx κ τ → Bool
  state : Ctx κ τ → ThreadState
  timed : Ctx κ τ → Bool
  /-- The return value of wakeup. -/
  woken : Ctx κ τ → Bool
  kernelSem : Int
  inside : Ctx κ τ → Bool
  waitset : CondVar π γ → List (Ctx κ τ)

section
variable {κ τ π γ μ : Type*} [DecidableEq κ] [DecidableEq τ] [DecidableEq π] [DecidableEq γ]
  [DecidableEq μ]

def State.goto (s : State κ τ π γ μ) (c : κ) (k : List (Instr κ τ π γ μ)) : State κ τ π γ μ :=
  { s with code := Function.update s.code (s.cur c) k }

def State.setState (s : State κ τ π γ μ) (x : Ctx κ τ) (v : ThreadState) : State κ τ π γ μ :=
  { s with state := Function.update s.state x v }

def State.popSave (s : State κ τ π γ μ) (c : κ) (l : List Bool) (v : Bool) : State κ τ π γ μ :=
  { s with
    saves := Function.update s.saves (s.cur c) l
    preemption := Function.update s.preemption c v }

/-- One instruction of the context on core c, with the code k behind it. A context that
spins in Mutex_Lock takes no step. -/
def runInstr (s : State κ τ π γ μ) (c : κ) (k : List (Instr κ τ π γ μ)) :
    Instr κ τ π γ μ → Option (State κ τ π γ μ)
  | .lock x =>
    if (s.held x).isNone then some { s.goto c k with held := Function.update s.held x (some (s.cur c)) }
    else none
  | .unlock x => some { s.goto c k with held := Function.update s.held x none }
  | .preemptOff => some ((s.popSave c (s.preemption c::s.saves (s.cur c)) false).goto c k)
  | .restore => match s.saves (s.cur c) with
    | [] => none
    | pre::l => some ((s.popSave c l (s.preemption c || pre)).goto c k)
  | .preemptOn => match s.saves (s.cur c) with
    | [] => none
    | _::l => some ((s.popSave c l true).goto c k)
  | .testSem =>
    if s.kernelSem≤0 then some (s.goto c (cvWait .kernelMutex .kernelSemCv false++.testSem::k))
    else some (s.goto c k)
  | .decr => some { s.goto c k with
      kernelSem := s.kernelSem-1
      inside := Function.update s.inside (s.cur c) true }
  | .incr => some { s.goto c k with
      kernelSem := s.kernelSem+1
      inside := Function.update s.inside (s.cur c) false }
  | .push cv => some { s.goto c k with
      waitset := Function.update s.waitset cv (s.waitset cv++[s.cur c]) }
  | .tidy cv => some { s.goto c k with
      waitset := Function.update s.waitset cv ((s.waitset cv).erase (s.cur c)) }
  | .signal cv broadcast => match s.waitset cv with
    | [] => some (s.goto c k)
    | w::ws => some { s.goto c (wakeup w++.again cv broadcast::k) with
        waitset := Function.update s.waitset cv ws }
  | .again cv broadcast =>
    if s.woken (s.cur c) = true ∧ broadcast = false then some (s.goto c k)
    else some (s.goto c (.signal cv broadcast::k))
  | .makeReady x =>
    if s.state x = .STOPPED ∨ s.state x = .INIT then
      some { (s.setState x .READY).goto c k with woken := Function.update s.woken (s.cur c) true }
    else some { s.goto c k with woken := Function.update s.woken (s.cur c) false }
  | .stop exited timed => some { (s.setState (s.cur c) (if exited then .EXITED else .STOPPED)).goto
      c k with
      timed := Function.update s.timed (s.cur c) timed }
  | .select => match s.state (s.cur c) with
    | .RUNNING => some ((s.setState (s.cur c) .READY).goto c k)
    | .READY | .STOPPED | .EXITED => some (s.goto c k)
    | .INIT => none
  | .takeOver => some ((s.setState (s.cur c) .RUNNING).goto c
      (if s.prev c≠s.cur c ∧ s.state (s.prev c) = .EXITED then countThread++k else k))
  | .switch | .poll _ => none

inductive Call (τ π γ μ : Type*) where
  | mutexLock (m : μ)
  | mutexUnlock (m : μ)
  | condWait (m : μ) (c : γ) (timed : Bool)
  | condSignal (c : γ) (broadcast : Bool)
  | kernelLock | kernelUnlock
  | kernelWait (c : γ) (timed : Bool)
  | kernelSleep (exited : Bool)
  | spawnThread (t : τ)
  | wakeup (t : τ)
  | serialRead (port : π)
  | yield

def Call.code : Call τ π γ μ → List (Instr κ τ π γ μ)
  | .mutexLock m => [.lock (.user m)]
  | .mutexUnlock m => [.unlock (.user m)]
  | .condWait m c timed => cvWait (.user m) (.other c) timed
  | .condSignal c broadcast => Spin.condSignal (.other c) broadcast
  | .kernelLock => Spin.kernelLock
  | .kernelUnlock => Spin.kernelUnlock
  | .kernelWait c timed => Spin.kernelWait (.other c) timed
  | .kernelSleep exited => Spin.kernelSleep exited
  | .spawnThread _ => countThread
  | .wakeup t => Spin.wakeup (.normal t)
  | .serialRead port => Spin.serialRead port
  | .yield => Spin.yield

def Ctx.isNormal : Ctx κ τ → Bool
  | .normal _ => true
  | .idle _ => false

/-- Threads in the kernel give it up and read; a thread is made once and woken after
that; the idle threads only yield, make threads and wake them. -/
def CallOk (s : State κ τ π γ μ) (x : Ctx κ τ) : Call τ π γ μ → Prop
  | .yield => True
  | .spawnThread t => s.state (.normal t) = .INIT ∧ s.out (.normal t) = false
  | .wakeup t => s.state (.normal t) = .INIT → s.out (.normal t) = true
  | .kernelUnlock | .kernelWait _ _ | .kernelSleep _ | .serialRead _ => s.inside x = true
  | .kernelLock => s.inside x = false ∧ x.isNormal = true
  | .mutexLock _ | .mutexUnlock _ | .condWait _ _ _ | .condSignal _ _ => x.isNormal = true

instance (s : State κ τ π γ μ) (x : Ctx κ τ) (f : Call τ π γ μ) : Decidable (CallOk s x f) :=
  match f with
  | .yield => inferInstanceAs (Decidable True)
  | .spawnThread t => inferInstanceAs
    (Decidable (s.state (.normal t) = .INIT ∧ s.out (.normal t) = false))
  | .wakeup t => inferInstanceAs
    (Decidable (s.state (.normal t) = .INIT → s.out (.normal t) = true))
  | .kernelUnlock | .kernelWait _ _ | .kernelSleep _ | .serialRead _ =>
    inferInstanceAs (Decidable (s.inside x = true))
  | .kernelLock => inferInstanceAs (Decidable (s.inside x = false ∧ x.isNormal = true))
  | .mutexLock _ | .mutexUnlock _ | .condWait _ _ _ | .condSignal _ _ =>
    inferInstanceAs (Decidable (x.isNormal = true))

/-- spawn_thread makes a context that starts in gain(1). -/
def State.spawn (s : State κ τ π γ μ) : Call τ π γ μ → State κ τ π γ μ
  | .spawnThread t => { s with
      code := Function.update s.code (.normal t) gain
      saves := Function.update s.saves (.normal t) [true]
      out := Function.update s.out (.normal t) true }
  | _ => s

def State.selects (s : State κ τ π γ μ) (c : κ) : Ctx κ τ → Bool
  | .idle c' => decide (c' = c)
  | .normal t => decide (s.state (.normal t) = .READY)

def cpuSwapContext (s : State κ τ π γ μ) (c : κ) (next : Ctx κ τ) :
    List (Instr κ τ π γ μ) → Option (State κ τ π γ μ)
  | .switch::k =>
    if s.out next = true ∧ s.selects c next = true then
      some { s.goto c k with
        cur := Function.update s.cur c next
        prev := Function.update s.prev c (s.cur c)
        out := Function.update (Function.update s.out (s.cur c) true) next false }
    else none
  | _ => none

def stay (s : State κ τ π γ μ) (c : κ) : List (Instr κ τ π γ μ) → Option (State κ τ π γ μ)
  | .switch::k =>
    if s.state (s.cur c) = .READY then some { s.goto c k with prev := Function.update s.prev c (s.cur c) }
    else none
  | _ => none

/-- A pass of the loop of serial_read, where the port has more bytes to come, none before
the first one, or no more. -/
inductive Poll where
  | byte | wait | done

def poll (s : State κ τ π γ μ) (c : κ) (r : Poll) : List (Instr κ τ π γ μ) → Option (State κ τ π γ μ)
  | .poll port::k => match r with
    | .byte => some s
    | .wait => some (s.goto c (kernelWait (.rxReady port) false++.poll port::k))
    | .done => some (s.goto c k)
  | _ => none

/-- Mutex_Lock gives up the core after MUTEX_SPINS rounds, if preemption is on. -/
def mutexYield (s : State κ τ π γ μ) (c : κ) : List (Instr κ τ π γ μ) → Option (State κ τ π γ μ)
  | .lock x::k =>
    if (s.held x).isSome ∧ s.preemption c = true then some (s.goto c (yield++.lock x::k)) else none
  | _ => none

inductive Label (κ τ π γ μ : Type*) where
  | run (c : κ)
  | call (c : κ) (f : Call τ π γ μ)
  | poll (c : κ) (r : Poll)
  | swap (c : κ) (next : Ctx κ τ)
  | stay (c : κ)
  | mutexYield (c : κ)
  /-- The handler of ALARM or of SERIAL_RX_READY starts on core c. -/
  | alarm (c : κ)
  | serialRx (c : κ)
  /-- The timeout of a sleeping thread expires. -/
  | expire (x : Ctx κ τ)

def next (ports : List π) (s : State κ τ π γ μ) : Label κ τ π γ μ → Option (State κ τ π γ μ)
  | .run c => match s.code (s.cur c) with
    | [] => none
    | i::k => runInstr s c k i
  | .call c f =>
    if s.code (s.cur c) = [] ∧ CallOk s (s.cur c) f then some ((s.spawn f).goto c f.code) else none
  | .poll c r => poll s c r (s.code (s.cur c))
  | .swap c next => cpuSwapContext s c next (s.code (s.cur c))
  | .stay c => stay s c (s.code (s.cur c))
  | .mutexYield c => mutexYield s c (s.code (s.cur c))
  | .alarm c => if s.preemption c then some (s.goto c (yield++s.code (s.cur c))) else none
  | .serialRx c =>
    if s.preemption c then some (s.goto c (serialRxHandler ports++s.code (s.cur c))) else none
  | .expire x =>
    if s.state x = .STOPPED ∧ s.timed x = true then some (s.setState x .READY) else none

def boot : State κ τ π γ μ where
  held _ := none
  code _ := []
  saves _ := []
  cur c := .idle c
  prev c := .idle c
  preemption _ := true
  out _ := false
  state x := match x with
    | .idle _ => .RUNNING
    | .normal _ => .INIT
  timed _ := false
  woken _ := false
  kernelSem := 1
  inside _ := false
  waitset _ := []

variable (κ τ γ μ)

def system (ports : List π) : Transition.System (State κ τ π γ μ) (Label κ τ π γ μ) where
  init s := s = boot
  next := next ports

end

end TinyOS.Spin
