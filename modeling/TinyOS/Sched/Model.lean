import TinyOS.Lib.Transition
import TinyOS.Util.RList

/-! The scheduler of kernel_sched.c. Each section under sched_spinlock is one
step; the cores interleave them in any order. A failed assertion, a NULL
dereference and a loop that runs out of threads are none. -/
namespace TinyOS.Sched
open RList

inductive ThreadState where
  | INIT | READY | RUNNING | STOPPED | EXITED
  deriving DecidableEq

inductive ThreadPhase where
  | CTX_CLEAN | CTX_DIRTY
  deriving DecidableEq

inductive ThreadType where
  | IDLE_THREAD | NORMAL_THREAD
  deriving DecidableEq

/-- A TCB lives in the CCB of its core (the idle thread) or is allocated. -/
inductive TcbRef (κ τ : Type*) where
  | idle (c : κ)
  | normal (t : τ)
  deriving DecidableEq

/-- The rlnodes of the scheduler: its two sentinels and the node of each TCB. -/
inductive Node (κ τ : Type*) where
  | SCHED
  | TIMEOUT_LIST
  | schedNode (r : TcbRef κ τ)
  deriving DecidableEq

structure TCB (κ τ : Type*) where
  type : ThreadType
  state : ThreadState
  phase : ThreadPhase
  wakeupTime : Nat
  prev : Option (TcbRef κ τ)
  next : Option (TcbRef κ τ)

/-- Where a core stands between its sections. -/
inductive Pc (κ τ : Type*) where
  | off
  | running
  /-- After the state change of sleep_releasing, with yield still to come. -/
  | stopping
  /-- After the selection of yield, before the contexts are swapped. -/
  | selected (next : TcbRef κ τ)
  /-- In the new context, with gain still to come. -/
  | switched
  | left
  deriving DecidableEq

structure State (κ τ : Type*) where
  heap : Heap (Node κ τ) (Option (TcbRef κ τ))
  tcb : TcbRef κ τ → TCB κ τ
  currentThread : κ → TcbRef κ τ
  pc : κ → Pc κ τ
  /-- The allocated TCBs, in order of creation. -/
  threads : List τ
  activeThreads : Int

def timerModulus : Nat := 2^64

def NO_TIMEOUT : Nat := timerModulus-1

def biosClock (systemClock : Nat) : Nat := systemClock*1000 % timerModulus

/-- The timeout given by Cond_TimedWait for a number of msec, or none at all. -/
def timeoutUsec : Option Nat → Nat
  | none => NO_TIMEOUT
  | some msec => msec*1000 % timerModulus

variable {κ τ : Type*} [DecidableEq κ] [DecidableEq τ]

def State.modTcb (s : State κ τ) (r : TcbRef κ τ) (f : TCB κ τ → TCB κ τ) : State κ τ :=
  { s with tcb := Function.update s.tcb r (f (s.tcb r)) }

def State.setPc (s : State κ τ) (c : κ) (p : Pc κ τ) : State κ τ :=
  { s with pc := Function.update s.pc c p }

/-- spawn_thread, at the address t of a TCB that is not allocated. -/
def spawnThread (s : State κ τ) (t : τ) : State κ τ :=
  { s with
    heap := rlnodeInit s.heap (.schedNode (.normal t)) (some (.normal t))
    tcb := Function.update s.tcb (.normal t)
      { s.tcb (.normal t) with
        type := .NORMAL_THREAD, state := .INIT, phase := .CTX_CLEAN, wakeupTime := NO_TIMEOUT }
    threads := s.threads++[t]
    activeThreads := s.activeThreads+1 }

def releaseTCB (s : State κ τ) : TcbRef κ τ → Option (State κ τ)
  | .normal t => some
    { s with threads := s.threads.erase t, activeThreads := s.activeThreads-1 }
  | .idle _ => none

/-- The first entry of TIMEOUT_LIST from n on that wakes up later, or the sentinel. -/
def skipEarlier (s : State κ τ) (wakeupTime : Nat) : Nat → Node κ τ → Option (Node κ τ)
  | 0, _ => none
  | fuel+1, n =>
    if n = .TIMEOUT_LIST then some n
    else match s.heap.key n with
      | none => none
      | some r =>
        if wakeupTime < (s.tcb r).wakeupTime then some n
        else skipEarlier s wakeupTime fuel (s.heap.next n)

def schedRegisterTimeout (s : State κ τ) (r : TcbRef κ τ) (timeout systemClock : Nat) :
    Option (State κ τ) :=
  if timeout≠NO_TIMEOUT then
    let wakeupTime := (biosClock systemClock+timeout) % timerModulus
    let s := s.modTcb r fun tcb => { tcb with wakeupTime := wakeupTime }
    (skipEarlier s wakeupTime (s.threads.length+1) (s.heap.next .TIMEOUT_LIST)).map fun n =>
      { s with heap := rlSplice s.heap (s.heap.prev n) (.schedNode r) }
  else some s

/-- The core restarted by cpu_core_restart_one is no part of the scheduler state. -/
def schedQueueAdd (s : State κ τ) (r : TcbRef κ τ) : State κ τ :=
  { s with heap := rlistPushBack s.heap .SCHED (.schedNode r) }

/-- The part of sched_make_ready that takes tcb out of TIMEOUT_LIST. -/
def leaveTimeoutList (s : State κ τ) (r : TcbRef κ τ) : Option (State κ τ) :=
  if (s.tcb r).wakeupTime≠NO_TIMEOUT then
    if s.heap.next (.schedNode r)≠.schedNode r ∧ (s.tcb r).state = .STOPPED then
      some { s.modTcb r fun tcb => { tcb with wakeupTime := NO_TIMEOUT } with
        heap := rlistRemove s.heap (.schedNode r) }
    else none
  else some s

def schedMakeReady (s : State κ τ) (r : TcbRef κ τ) : Option (State κ τ) :=
  if (s.tcb r).state = .STOPPED ∨ (s.tcb r).state = .INIT then
    (leaveTimeoutList s r).map fun s =>
      let s := s.modTcb r fun tcb => { tcb with state := .READY }
      if (s.tcb r).phase = .CTX_CLEAN then schedQueueAdd s r else s
  else none

/-- The loop of sched_queue_select over the expired part of TIMEOUT_LIST. -/
def wakeExpired (curtime : Nat) : Nat → State κ τ → Option (State κ τ)
  | 0, _ => none
  | fuel+1, s =>
    if isRlistEmpty s.heap .TIMEOUT_LIST then some s
    else match s.heap.key (s.heap.next .TIMEOUT_LIST) with
      | none => none
      | some r =>
        if (s.tcb r).wakeupTime>curtime then some s
        else (schedMakeReady s r).bind (wakeExpired curtime fuel)

def schedQueueSelect (s : State κ τ) (systemClock : Nat) :
    Option (State κ τ × Option (TcbRef κ τ)) :=
  (wakeExpired (biosClock systemClock) (s.threads.length+1) s).map fun s =>
    let (heap,sel) := rlistPopFront s.heap .SCHED
    ({ s with heap := heap },heap.key sel)

def wakeup (s : State κ τ) (r : TcbRef κ τ) : Option (State κ τ × Bool) :=
  if (s.tcb r).state = .STOPPED ∨ (s.tcb r).state = .INIT then
    (schedMakeReady s r).map fun s => (s,true)
  else some (s,false)

/-- The state change of sleep_releasing, by the current thread of core c. -/
def sleepReleasing (s : State κ τ) (c : κ) (state : ThreadState) (timeout systemClock : Nat) :
    Option (State κ τ) :=
  if state = .STOPPED ∨ state = .EXITED then
    let tcb := s.currentThread c
    let s := s.modTcb tcb fun t => { t with state := state }
    (if state≠.EXITED then schedRegisterTimeout s tcb timeout systemClock else some s).map
      fun s => s.setPc c .stopping
  else none

/-- The switch of yield on the state of the current thread: is it ready to go on? -/
def yieldMark (s : State κ τ) (c : κ) : Option (State κ τ × Bool) :=
  match (s.tcb (s.currentThread c)).state with
  | .RUNNING | .READY =>
    some ((s.modTcb (s.currentThread c) fun t => { t with state := .READY }).setPc c .stopping,true)
  | .STOPPED | .EXITED => some (s.setPc c .stopping,false)
  | .INIT => none

def yieldLink (s : State κ τ) (c : κ) (next : TcbRef κ τ) : State κ τ :=
  ((s.modTcb (s.currentThread c) fun t => { t with next := some next }).modTcb next
    fun t => { t with prev := some (s.currentThread c) }).setPc c (.selected next)

/-- The selection section of yield. -/
def yield (s : State κ τ) (c : κ) (systemClock : Nat) : Option (State κ τ) :=
  (yieldMark s c).bind fun (s,currentReady) =>
    (schedQueueSelect s systemClock).map fun (s,sel) =>
      yieldLink s c <| match sel with
        | some next => next
        | none => if currentReady then s.currentThread c else .idle c

/-- CURTHREAD = next and cpu_swap_context, outside the spinlock. -/
def swapContext (s : State κ τ) (c : κ) : Option (State κ τ) :=
  match s.pc c with
  | .selected next => some
    { s with currentThread := Function.update s.currentThread c next,
             pc := Function.update s.pc c .switched }
  | _ => none

/-- Take care of the previous thread. -/
def gainPrev (s : State κ τ) (prev : TcbRef κ τ) : Option (State κ τ) :=
  let s := s.modTcb prev fun t => { t with phase := .CTX_CLEAN }
  match (s.tcb prev).state with
  | .READY => some (if (s.tcb prev).type≠.IDLE_THREAD then schedQueueAdd s prev else s)
  | .EXITED => releaseTCB s prev
  | .STOPPED => some s
  | .INIT | .RUNNING => none

def gain (s : State κ τ) (c : κ) : Option (State κ τ) :=
  let current := s.currentThread c
  match (s.tcb current).prev with
  | none => none
  | some prev =>
    let s := s.modTcb current fun t => { t with state := .RUNNING, phase := .CTX_DIRTY }
    (if current≠prev then gainPrev s prev else some s).map fun s => s.setPc c .running

/-- run_scheduler up to the idle loop. -/
def runScheduler (s : State κ τ) (c : κ) : State κ τ :=
  { s with
    heap := rlnodeInit s.heap (.schedNode (.idle c)) (some (.idle c))
    tcb := Function.update s.tcb (.idle c)
      { s.tcb (.idle c) with
        type := .IDLE_THREAD, state := .RUNNING, phase := .CTX_DIRTY, wakeupTime := NO_TIMEOUT }
    currentThread := Function.update s.currentThread c (.idle c)
    pc := Function.update s.pc c .running }

inductive Label (κ τ : Type*) where
  | enter (c : κ)
  | leave (c : κ)
  | spawn (t : τ)
  | wakeup (t : τ)
  | sleep (c : κ) (state : ThreadState) (msec : Option Nat) (systemClock : Nat)
  | yield (c : κ) (systemClock : Nat)
  | swap (c : κ)
  | gain (c : κ)

def TcbRef.isNormal : TcbRef κ τ → Bool
  | .normal _ => true
  | .idle _ => false

/-- Program order on each core. Idle threads run idle_thread only and never sleep;
a wakeup names an existing TCB, a spawn a free address. -/
def Enabled (s : State κ τ) : Label κ τ → Prop
  | .enter c => s.pc c = .off
  | .leave c => s.pc c = .running ∧ s.currentThread c = .idle c ∧ s.activeThreads = 0
  | .spawn t => t∉s.threads
  | .wakeup t => t∈s.threads
  | .sleep c state _ _ => s.pc c = .running ∧ (s.currentThread c).isNormal = true ∧
      (state = .STOPPED ∨ state = .EXITED)
  | .yield c _ => s.pc c = .running ∨ s.pc c = .stopping
  | .swap c => ∃ next, s.pc c = .selected next
  | .gain c => s.pc c = .switched

def exec (s : State κ τ) : Label κ τ → Option (State κ τ)
  | .enter c => some (runScheduler s c)
  | .leave c => some (s.setPc c .left)
  | .spawn t => some (spawnThread s t)
  | .wakeup t => (wakeup s (.normal t)).map Prod.fst
  | .sleep c state msec systemClock => sleepReleasing s c state (timeoutUsec msec) systemClock
  | .yield c systemClock => yield s c systemClock
  | .swap c => swapContext s c
  | .gain c => gain s c

instance (s : State κ τ) (c : κ) : Decidable (∃ next, s.pc c = .selected next) :=
  match h : s.pc c with
  | .selected next => isTrue ⟨next,rfl⟩
  | .off | .running | .stopping | .switched | .left => isFalse (by rintro ⟨_,hn⟩; cases hn)

instance (s : State κ τ) (a : Label κ τ) : Decidable (Enabled s a) :=
  match a with
  | .enter c => inferInstanceAs (Decidable (s.pc c = .off))
  | .leave c => inferInstanceAs
      (Decidable (s.pc c = .running ∧ s.currentThread c = .idle c ∧ s.activeThreads = 0))
  | .spawn t => inferInstanceAs (Decidable (t∉s.threads))
  | .wakeup t => inferInstanceAs (Decidable (t∈s.threads))
  | .sleep c state _ _ => inferInstanceAs (Decidable (s.pc c = .running ∧
      (s.currentThread c).isNormal = true ∧ (state = .STOPPED ∨ state = .EXITED)))
  | .yield c _ => inferInstanceAs (Decidable (s.pc c = .running ∨ s.pc c = .stopping))
  | .swap c => inferInstanceAs (Decidable (∃ next, s.pc c = .selected next))
  | .gain c => inferInstanceAs (Decidable (s.pc c = .switched))

/-- After initialize_scheduler, before any core has entered: every node a singleton
ring, the static TCBs zero. -/
def boot : State κ τ where
  heap := ⟨fun _ => none,id,id⟩
  tcb _ := ⟨.IDLE_THREAD,.INIT,.CTX_CLEAN,0,none,none⟩
  currentThread c := .idle c
  pc _ := .off
  threads := []
  activeThreads := 0

def system (κ τ : Type*) [DecidableEq κ] [DecidableEq τ] :
    Transition.System (State κ τ) (Label κ τ) where
  init s := s = boot
  next s a := if Enabled s a then exec s a else none

end TinyOS.Sched
