import Mathlib.Logic.Function.Basic
import TinyOS.Lib.Transition

/-! The interrupts of bios.c under the preemption of the kernel, from the first preempt_on
of run_scheduler on. Each context has a stack of calls, and each access to a core or to
the signal mask is one step; a signal may be delivered between any two of them. What the
scheduler selects, and what the threads do besides, is left open. -/
namespace TinyOS.Bios

inductive Interrupt where
  | ICI | ALARM | SERIAL_RX_READY | SERIAL_TX_READY
  deriving DecidableEq

def Interrupt.all : List Interrupt := [.ICI, .ALARM, .SERIAL_RX_READY, .SERIAL_TX_READY]

inductive Handler where
  | iciHandler | yieldHandler | serialRxHandler | serialTxHandler
  deriving DecidableEq

inductive Ctx (κ τ : Type*) where
  | idle (c : κ)
  | normal (t : τ)
  deriving DecidableEq

/-- The functions with a preempt_off at the start and a preempt_on at the end. All but
serial_read have the latter only if preemption was on. -/
inductive Bracket where
  | wakeup | sleepReleasing | serialRxHandler | serialRead
  deriving DecidableEq

inductive Plain where
  | mutexLock | condWait | condSignal | kernelWait | kernelLock | kernelUnlock
  deriving DecidableEq

inductive BracketPc where
  | off | save
  | inside (pre : Bool)
  | ret
  deriving DecidableEq

inductive YieldPc where
  | cancel | off | save
  /-- Between the selection of the next thread and the switch to it. -/
  | switch (preempt : Bool)
  | ret
  deriving DecidableEq

inductive GainPc where
  | preempt | timer | ret
  deriving DecidableEq

inductive PreemptionPc where
  | disable | exchangeOff | exchangeOn | enable | done
  deriving DecidableEq

inductive DisablePc (κ : Type*) where
  | load
  | test (core : κ)
  | block (core : κ)
  | set (core : κ)
  deriving DecidableEq

inductive EnablePc (κ : Type*) where
  | load
  | test (core : κ)
  | clear (core : κ)
  | unblock | dispatch | ret
  deriving DecidableEq

inductive TimerPc (κ : Type*) where
  | load
  | settime (core : κ)
  | reload
  | clear (core : κ)
  | ret
  deriving DecidableEq

inductive DispatchPc where
  | test | pending | clear | call
  deriving DecidableEq

inductive SignalPc where
  | enter | ret
  deriving DecidableEq

inductive HaltPc (κ : Type*) where
  | start
  | block (core : κ)
  | park (core : κ)
  | parked (core : κ)
  | unblock (core : κ)
  | dispatch (core : κ)
  | ret
  deriving DecidableEq

/-- A call in progress. For the proofs, the functions of the kernel keep the preemption
they were called with, cpu_disable_interrupts and bios_set_timer the cores they have
changed, and sigusr1_handler whether SIGUSR1 has been unblocked since. -/
inductive Frame (κ : Type*) where
  | body
  | plain (f : Plain) (was : Bool)
  | bracket (f : Bracket) (was : Bool) (pc : BracketPc)
  | yield (was : Bool) (pc : YieldPc)
  | gain (preempt : Bool) (pc : GainPc)
  | setPreemption (pc : PreemptionPc)
  | disable (pc : DisablePc κ) (wrote : List κ)
  | enable (pc : EnablePc κ)
  | setTimer (usec : Nat) (pc : TimerPc κ) (wrote : List κ)
  | dispatch (core : κ) (intnos : List Interrupt) (pc : DispatchPc)
  | sigusr1 (core : κ) (opened : Bool) (pc : SignalPc)
  | halt (pc : HaltPc κ)
  deriving DecidableEq

/-- A core, with the preemption flag of its CCB and the signal state of its pthread. For
the proofs it counts how often each pending bit was cleared, and keeps whether a
raise_interrupt for the bit as it is has restarted the core and has returned. -/
structure Core where
  intDisabled : Bool
  intpending : Interrupt → Bool
  intvec : Interrupt → Option Handler
  timer : Nat
  halted : Bool
  blocked : Bool
  queued : Bool
  preemption : Bool
  cleared : Interrupt → Nat
  restarted : Interrupt → Bool
  returned : Interrupt → Bool

inductive RaisePc where
  | queue | restart | ret
  deriving DecidableEq

/-- A call of raise_interrupt that has set the pending bit. -/
structure Raise (κ : Type*) where
  core : κ
  intno : Interrupt
  cleared : Nat
  pc : RaisePc

inductive Leaf where
  | cpuDisableInterrupts | biosSetTimer
  deriving DecidableEq

structure Done (κ : Type*) where
  call : Leaf
  wrote : List κ
  core : κ
  intDisabled : Bool
  blocked : Bool
  deriving DecidableEq

structure Entry (κ : Type*) where
  owner : κ
  core : κ
  intno : Interrupt
  intDisabled : Bool
  blocked : Bool
  deriving DecidableEq

structure Return where
  was : Bool
  now : Bool
  deriving DecidableEq

structure State (κ τ ρ : Type*) where
  core : κ → Core
  cur : κ → Ctx κ τ
  stack : Ctx κ τ → List (Frame κ)
  /-- The signal mask saved in a context that is switched out. -/
  saved : Ctx κ τ → Option Bool
  haltedList : List κ
  raises : ρ → Option (Raise κ)
  done : List (Done κ)
  entries : List (Entry κ)
  returns : List Return

def QUANTUM : Nat := 10000

variable {κ τ ρ : Type*} [DecidableEq κ] [DecidableEq τ] [DecidableEq ρ]

def State.modCore (s : State κ τ ρ) (c : κ) (f : Core → Core) : State κ τ ρ :=
  { s with core := Function.update s.core c (f (s.core c)) }

def State.goto (s : State κ τ ρ) (c : κ) (l : List (Frame κ)) : State κ τ ρ :=
  { s with stack := Function.update s.stack (s.cur c) l }

def Core.clearPending (k : Core) (i : Interrupt) : Core :=
  { k with
    intpending := Function.update k.intpending i false
    cleared := Function.update k.cleared i (k.cleared i+1)
    restarted := Function.update k.restarted i false
    returned := Function.update k.returned i false }

def unblocked (l : List (Frame κ)) : List (Frame κ) :=
  l.map fun f => match f with
    | .sigusr1 core _ pc => .sigusr1 core true pc
    | f => f

def State.deliver (s : State κ τ ρ) (c : κ) (l : List (Frame κ)) : State κ τ ρ :=
  (s.modCore c fun k => { k with queued := false, blocked := true }).goto c
    (.sigusr1 c false .enter::l)

/-- pthread_sigmask(SIG_UNBLOCK, &sigusr1_set, NULL): a signal that is queued is delivered
before it returns. -/
def State.sigUnblock (s : State κ τ ρ) (c : κ) (l : List (Frame κ)) : State κ τ ρ :=
  if (s.core c).queued then s.deliver c (unblocked l)
  else (s.modCore c fun k => { k with blocked := false }).goto c (unblocked l)

def State.sigBlock (s : State κ τ ρ) (c : κ) : State κ τ ρ :=
  s.modCore c fun k => { k with blocked := true }

def saveResult (old : Bool) : List (Frame κ) → List (Frame κ)
  | .yield was .save::rest => .yield was (.switch old)::rest
  | .bracket f was .save::rest => .bracket f was (.inside old)::rest
  | l => l

def setCorePreemption (s : State κ τ ρ) (c : κ) (rest : List (Frame κ)) : PreemptionPc → State κ τ ρ
  | .disable => s.goto c (.disable .load []::.setPreemption .exchangeOff::rest)
  | .exchangeOff => (s.modCore c fun k => { k with preemption := false }).goto c
      (saveResult (s.core c).preemption rest)
  | .exchangeOn => (s.modCore c fun k => { k with preemption := true }).goto c
      (.setPreemption .enable::rest)
  | .enable => s.goto c (.enable .load::.setPreemption .done::rest)
  | .done => s.goto c rest

def State.finishLeaf (s : State κ τ ρ) (c : κ) (call : Leaf) (wrote : List κ)
    (rest : List (Frame κ)) : State κ τ ρ :=
  { s.goto c rest with
    done := s.done++[⟨call,wrote,c,(s.core c).intDisabled,(s.core c).blocked⟩] }

def cpuDisableInterrupts (s : State κ τ ρ) (c : κ) (wrote : List κ) (rest : List (Frame κ)) :
    DisablePc κ → State κ τ ρ
  | .load => s.goto c (.disable (.test c) wrote::rest)
  | .test core =>
    if (s.core core).intDisabled then s.finishLeaf c .cpuDisableInterrupts wrote rest
    else s.goto c (.disable (.block core) wrote::rest)
  | .block core => (s.sigBlock c).goto c (.disable (.set core) (wrote++[c])::rest)
  | .set core => (s.modCore core fun k => { k with intDisabled := true }).finishLeaf c
      .cpuDisableInterrupts (wrote++[core]) rest

def cpuEnableInterrupts (s : State κ τ ρ) (c : κ) (rest : List (Frame κ)) : EnablePc κ → State κ τ ρ
  | .load => s.goto c (.enable (.test c)::rest)
  | .test core =>
    if (s.core core).intDisabled then s.goto c (.enable (.clear core)::rest) else s.goto c rest
  | .clear core => (s.modCore core fun k => { k with intDisabled := false }).goto c
      (.enable .unblock::rest)
  | .unblock => s.sigUnblock c (.enable .dispatch::rest)
  | .dispatch => s.goto c (.dispatch c Interrupt.all .test::.enable .ret::rest)
  | .ret => s.goto c rest

/-- curr_core() is called for the timer and again for the pending bit. -/
def biosSetTimer (s : State κ τ ρ) (c : κ) (usec : Nat) (wrote : List κ) (rest : List (Frame κ)) :
    TimerPc κ → State κ τ ρ
  | .load => s.goto c (.setTimer usec (.settime c) wrote::rest)
  | .settime core => (s.modCore core fun k => { k with timer := usec }).goto c
      (.setTimer usec .reload (wrote++[core])::rest)
  | .reload => s.goto c (.setTimer usec (.clear c) wrote::rest)
  | .clear core => (s.modCore core fun k => k.clearPending .ALARM).goto c
      (.setTimer usec .ret (wrote++[core])::rest)
  | .ret => s.finishLeaf c .biosSetTimer wrote rest

def Handler.frames (was : Bool) : Handler → List (Frame κ)
  | .yieldHandler => [.yield was .cancel]
  | .serialRxHandler => [.bracket .serialRxHandler was .off]
  | .iciHandler | .serialTxHandler => []

def dispatchInterrupts (s : State κ τ ρ) (c core : κ) (rest : List (Frame κ)) :
    List Interrupt → DispatchPc → State κ τ ρ
  | [], _ => s.goto c rest
  | i::is, .test =>
    if (s.core core).intDisabled then s.goto c rest else s.goto c (.dispatch core (i::is) .pending::rest)
  | i::is, .pending =>
    if (s.core core).intpending i then s.goto c (.dispatch core (i::is) .clear::rest)
    else s.goto c (.dispatch core is .test::rest)
  | i::is, .clear => (s.modCore core fun k => k.clearPending i).goto c
      (.dispatch core (i::is) .call::rest)
  | i::is, .call => match (s.core core).intvec i with
    | none => s.goto c (.dispatch core is .test::rest)
    | some handler =>
      { s.goto c (handler.frames (s.core c).preemption++.dispatch core is .test::rest) with
        entries := s.entries++[⟨core,c,i,(s.core c).intDisabled,(s.core c).blocked⟩] }

/-- The return of a signal handler gives back the mask at its delivery. -/
def sigusr1Handler (s : State κ τ ρ) (c core : κ) (opened : Bool) (rest : List (Frame κ)) :
    SignalPc → State κ τ ρ
  | .enter =>
    if (s.core core).intDisabled then s.goto c (.sigusr1 core opened .ret::rest)
    else s.goto c (.dispatch core Interrupt.all .test::.sigusr1 core opened .ret::rest)
  | .ret => (s.modCore c fun k => { k with blocked := false }).goto c rest

/-- The section under core_halt_mutex that marks the core as halted, and the wait for
halt_cond, are one step each. -/
def cpuCoreHalt (s : State κ τ ρ) (c : κ) (rest : List (Frame κ)) : HaltPc κ → Option (State κ τ ρ)
  | .start => if (s.core c).intDisabled then none else some (s.goto c (.halt (.block c)::rest))
  | .block core => some ((s.sigBlock c).goto c (.halt (.park core)::rest))
  | .park core => some { (s.modCore core fun k => { k with halted := true }).goto c
      (.halt (.parked core)::rest) with haltedList := core::s.haltedList }
  | .parked core => if (s.core core).halted then
      none else some (s.goto c (.halt (.unblock core)::rest))
  | .unblock core => some (s.sigUnblock c (.halt (.dispatch core)::rest))
  | .dispatch core => some (s.goto c (.dispatch core Interrupt.all .test::.halt .ret::rest))
  | .ret => some (s.goto c rest)

def State.finishCall (s : State κ τ ρ) (c : κ) (was : Bool) (rest : List (Frame κ)) : State κ τ ρ :=
  { s.goto c rest with returns := s.returns++[⟨was,(s.core c).preemption⟩] }

def yield (s : State κ τ ρ) (c : κ) (was : Bool) (rest : List (Frame κ)) : YieldPc → Option (State κ τ ρ)
  | .cancel => some (s.goto c (.setTimer 0 .load []::.yield was .off::rest))
  | .off => some (s.goto c (.setPreemption .disable::.yield was .save::rest))
  | .save | .switch _ => none
  | .ret => some (s.finishCall c was rest)

def gain (s : State κ τ ρ) (c : κ) (preempt : Bool) (rest : List (Frame κ)) : GainPc → State κ τ ρ
  | .preempt =>
    if preempt then s.goto c (.setPreemption .exchangeOn::.gain preempt .timer::rest)
    else s.goto c (.gain preempt .timer::rest)
  | .timer => s.goto c (.setTimer QUANTUM .load []::.gain preempt .ret::rest)
  | .ret => s.goto c rest

def bracket (s : State κ τ ρ) (c : κ) (f : Bracket) (was : Bool) (rest : List (Frame κ)) :
    BracketPc → Option (State κ τ ρ)
  | .off => some (s.goto c (.setPreemption .disable::.bracket f was .save::rest))
  | .save | .inside _ => none
  | .ret => some (s.finishCall c was rest)

def runFrame (s : State κ τ ρ) (c : κ) (rest : List (Frame κ)) : Frame κ → Option (State κ τ ρ)
  | .body | .plain _ _ => none
  | .bracket f was pc => bracket s c f was rest pc
  | .yield was pc => yield s c was rest pc
  | .gain preempt pc => some (gain s c preempt rest pc)
  | .setPreemption pc => some (setCorePreemption s c rest pc)
  | .disable pc wrote => some (cpuDisableInterrupts s c wrote rest pc)
  | .enable pc => some (cpuEnableInterrupts s c rest pc)
  | .setTimer usec pc wrote => some (biosSetTimer s c usec wrote rest pc)
  | .dispatch core intnos pc => some (dispatchInterrupts s c core rest intnos pc)
  | .sigusr1 core opened pc => some (sigusr1Handler s c core opened rest pc)
  | .halt pc => cpuCoreHalt s c rest pc

inductive Call where
  | yield
  | bracket (f : Bracket)
  | plain (f : Plain)
  | halt

/-- Code that makes calls: that of a thread, of a handler, or of a function in between. -/
def Frame.calls : Frame κ → Bool
  | .body | .plain _ _ | .bracket _ _ (.inside _) => true
  | _ => false

/-- Idle threads alone halt; a thread reads from a serial port in a system call. -/
def CallOk (s : State κ τ ρ) (c : κ) (l : List (Frame κ)) : Call → Prop
  | .halt => s.cur c = .idle c ∧ l = [.body]
  | .bracket .serialRead => l = [.body]
  | .bracket .serialRxHandler => False
  | .bracket .wakeup | .bracket .sleepReleasing | .yield | .plain _ => True

instance (s : State κ τ ρ) (c : κ) (l : List (Frame κ)) (f : Call) : Decidable (CallOk s c l f) :=
  match f with
  | .halt => inferInstanceAs (Decidable (s.cur c = .idle c ∧ l = [.body]))
  | .bracket .serialRead => inferInstanceAs (Decidable (l = [.body]))
  | .bracket .serialRxHandler => inferInstanceAs (Decidable False)
  | .bracket .wakeup | .bracket .sleepReleasing | .yield | .plain _ => inferInstanceAs
      (Decidable True)

def Call.frame (was : Bool) : Call → Frame κ
  | .yield => .yield was .cancel
  | .bracket f => .bracket f was .off
  | .plain f => .plain f was
  | .halt => .halt .start

def finish (s : State κ τ ρ) (c : κ) : List (Frame κ) → Option (State κ τ ρ)
  | .plain _ was::rest => some (s.finishCall c was rest)
  | .bracket f was (.inside pre)::rest =>
    if pre ∨ f = .serialRead then
      some (s.goto c (.setPreemption .exchangeOn::.bracket f was .ret::rest))
    else some (s.goto c (.bracket f was .ret::rest))
  | _ => none

def Ctx.runsOn (c : κ) : Ctx κ τ → Bool
  | .idle c' => decide (c' = c)
  | .normal _ => true

/-- The thread that yields is not RUNNING but in sleep_releasing. -/
def sleeps : List (Frame κ) → Bool
  | .bracket .sleepReleasing _ (.inside _)::_ => true
  | _ => false

/-- cpu_swap_context, to a context that is switched out. A thread that could go on is left
for another thread, never for the idle thread. -/
def cpuSwapContext (s : State κ τ ρ) (c : κ) (next : Ctx κ τ) : List (Frame κ) → Option (State κ τ ρ)
  | .yield was (.switch preempt)::rest =>
    (s.saved next).bind fun mask =>
      if next.runsOn c = true ∧ (next = .idle c → sleeps rest = true) then
        some { (s.modCore c fun k => { k with blocked := mask }) with
          cur := Function.update s.cur c next
          stack := Function.update s.stack (s.cur c)
            (.gain preempt .preempt::.yield was .ret::rest)
          saved := Function.update (Function.update s.saved (s.cur c) (some (s.core c).blocked))
            next none }
      else none
  | _ => none

def stay (s : State κ τ ρ) (c : κ) : List (Frame κ) → Option (State κ τ ρ)
  | .yield was (.switch preempt)::rest =>
    some (s.goto c (.gain preempt .preempt::.yield was .ret::rest))
  | _ => none

/-- cpu_initialize_context for thread_start, with the signal mask of core c. -/
def cpuInitializeContext (s : State κ τ ρ) (c : κ) (t : τ) : State κ τ ρ :=
  { s with
    stack := Function.update s.stack (.normal t) [.gain true .preempt, .body]
    saved := Function.update s.saved (.normal t) (some (s.core c).blocked) }

def coreRestart (s : State κ τ ρ) (c : κ) : State κ τ ρ :=
  if (s.core c).halted then
    { s.modCore c fun k => { k with halted := false } with haltedList := s.haltedList.erase c }
  else s

def cpuCoreRestartOne (s : State κ τ ρ) : State κ τ ρ :=
  match s.haltedList with
  | [] => s
  | c::l => coreRestart { s with haltedList := l } c

def cpuCoreRestartAll (s : State κ τ ρ) : State κ τ ρ :=
  { s with core := fun c => { s.core c with halted := false }, haltedList := [] }

/-- For the proofs: a raise_interrupt for the bit of i has restarted the core, or has
returned, and the bit has not been cleared since. -/
def Core.markRestarted (k : Core) (x : Raise κ) : Core :=
  { k with
    restarted := Function.update k.restarted x.intno
      (decide (k.cleared x.intno = x.cleared) || k.restarted x.intno) }

def Core.markReturned (k : Core) (x : Raise κ) : Core :=
  { k with
    returned := Function.update k.returned x.intno
      (decide (k.cleared x.intno = x.cleared) || k.returned x.intno) }

def raiseInterrupt (s : State κ τ ρ) (r : ρ) (x : Raise κ) : State κ τ ρ :=
  match x.pc with
  | .queue => { s.modCore x.core fun k => { k with queued := true } with
      raises := Function.update s.raises r (some { x with pc := .restart }) }
  | .restart => { (coreRestart s x.core).modCore x.core fun k => k.markRestarted x with
      raises := Function.update s.raises r (some { x with pc := .ret }) }
  | .ret => { s.modCore x.core fun k => k.markReturned x with
      raises := Function.update s.raises r none }

inductive Label (κ τ ρ : Type*) where
  | run (c : κ)
  | call (c : κ) (f : Call)
  | finish (c : κ)
  | swap (c : κ) (next : Ctx κ τ)
  | stay (c : κ)
  | spawn (c : κ) (t : τ)
  /-- SIGUSR1 is delivered to the pthread of core c. -/
  | deliver (c : κ)
  /-- The PIC thread, or a core, calls raise_interrupt, and takes its next step there. -/
  | raise (r : ρ) (c : κ) (i : Interrupt)
  | raiseNext (r : ρ)
  | restartOne
  | restartAll

def State.top (s : State κ τ ρ) (c : κ) : List (Frame κ) := s.stack (s.cur c)

def next (s : State κ τ ρ) : Label κ τ ρ → Option (State κ τ ρ)
  | .run c => match s.top c with
    | [] => none
    | f::rest => runFrame s c rest f
  | .call c f => match s.top c with
    | [] => none
    | g::rest =>
      if g.calls = true ∧ CallOk s c (g::rest) f then
        some (s.goto c (f.frame (s.core c).preemption::g::rest))
      else none
  | .finish c => finish s c (s.top c)
  | .swap c next => cpuSwapContext s c next (s.top c)
  | .stay c => stay s c (s.top c)
  | .spawn c t =>
    if s.stack (.normal t) = [] ∧ s.saved (.normal t) = none then some (cpuInitializeContext s c t)
    else none
  | .deliver c =>
    if (s.core c).queued = true ∧ (s.core c).blocked = false then
      some (s.deliver c (s.top c))
    else none
  | .raise r c i =>
    if (s.raises r).isNone then
      some { s.modCore c fun k => { k with intpending := Function.update k.intpending i true } with
        raises := Function.update s.raises r (some ⟨c,i,(s.core c).cleared i,.queue⟩) }
    else none
  | .raiseNext r => (s.raises r).map (raiseInterrupt s r)
  | .restartOne => some (cpuCoreRestartOne s)
  | .restartAll => some (cpuCoreRestartAll s)

def handlers (serial : Bool) : Interrupt → Option Handler
  | .ICI => some .iciHandler
  | .ALARM => some .yieldHandler
  | .SERIAL_RX_READY => if serial then some .serialRxHandler else none
  | .SERIAL_TX_READY => if serial then some .serialTxHandler else none

def boot (serial : κ → Bool) : State κ τ ρ where
  core c := ⟨false,fun _ => false,handlers (serial c),0,false,false,false,true,fun _ => 0,
    fun _ => false,fun _ => false⟩
  cur c := .idle c
  stack x := match x with
    | .idle _ => [.body]
    | .normal _ => []
  saved _ := none
  haltedList := []
  raises _ := none
  done := []
  entries := []
  returns := []

variable (κ τ ρ)

def system : Transition.System (State κ τ ρ) (Label κ τ ρ) where
  init s := ∃ serial, s = boot serial
  next := next

end TinyOS.Bios
