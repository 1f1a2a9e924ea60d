import TinyOS.Kernel.Streams
import TinyOS.Lib.Transition

/-! The system calls, as sections under the kernel lock. A call that waits leaves its
thread in kernel_wait; once woken, the thread takes the kernel again and goes on from
there. Every process has at most its main thread. -/
namespace TinyOS.Kernel
open RList

/-- Where the main thread of a process is while the kernel lock is free. -/
inductive Thread where
  | user
  /-- In kernel_wait of wait_for_specific_child; status is a non-NULL pointer. -/
  | waitChild (child : PcbRef) (status : Bool)
  | waitAny (status : Bool)
  /-- In kernel_wait of the WaitChild loop of sys_Exit. -/
  | exitWait (exitval : Int)
  /-- In kernel_wait of serial_read on behalf of sys_Read. -/
  | reading (fcb : FcbRef) (port size : Nat)
  deriving DecidableEq

/-- The calls that matter to the life of a process, with what they return. -/
inductive Event where
  | exec (parent : Option PcbRef) (pid : PcbRef)
  | exit (pid : PcbRef) (exitval : Int)
  | wait (caller : PcbRef) (ret : Int) (status : Bool) (stored : Option Int)
  deriving DecidableEq

structure State where
  procs : Procs
  files : Files
  thread : PcbRef → Option Thread
  /-- The main thread is STOPPED. -/
  stopped : PcbRef → Bool
  /-- The rings of the CondVars child_exit of each PCB and rx_ready of each port. -/
  childExit : PcbRef → List PcbRef
  rxReady : Nat → List PcbRef
  /-- The threads in state EXITED whose TCB is not released. -/
  exited : Nat
  activeThreads : Int
  serialPorts : Nat
  log : List Event

def State.record (s : State) (e : Event) : State := { s with log := s.log++[e] }

def State.setThread (s : State) (p : PcbRef) (t : Option Thread) : State :=
  { s with thread := Function.update s.thread p t }

def waitChildExit (s : State) (p : PcbRef) (t : Thread) : State :=
  { s.setThread p (some t) with
    stopped := Function.update s.stopped p true
    childExit := Function.update s.childExit p (s.childExit p++[p]) }

def broadcastChildExit (s : State) (p : PcbRef) : State :=
  { s with
    stopped := fun q => if q∈s.childExit p then false else s.stopped q
    childExit := Function.update s.childExit p [] }

/-- spawn_thread and wakeup for the main thread of newproc. -/
def startMainThread (s : State) (newproc : PcbRef) : State :=
  { s.setThread newproc (some .user) with
    stopped := Function.update s.stopped newproc false
    activeThreads := s.activeThreads+1 }

/-- sys_Exec; call is whether the task is not NULL. -/
def sysExec (s : State) (curproc : PcbRef) (call : Bool) (argl : Nat)
    (args : Option (List UInt8)) : State × Int :=
  match acquirePCB s.procs with
  | (procs,none) => ({ s with procs := procs },getPid none)
  | (procs,some newproc) =>
    let s := { s with
      procs := copyArgs (inheritParent procs curproc newproc) newproc argl args
      files := if newproc.val≤1 then s.files else inheritFIDT s.files curproc newproc }
    let s := s.record (.exec (if newproc.val≤1 then none else some curproc) newproc)
    (if call then startMainThread s newproc else s,getPid (some newproc))

abbrev WaitResult := Int × Option Int

/-- The loop of wait_for_specific_child, for a legal child. -/
def awaitChild (s : State) (parent child : PcbRef) (status : Bool) : State × Option WaitResult :=
  if (s.procs.PT child).pstate = .ALIVE then
    (waitChildExit s parent (.waitChild child status),none)
  else
    let (procs,stored) := cleanupZombie s.procs child status
    ({ s with procs := procs },some (getPid (some child),stored))

def waitForSpecificChild (s : State) (parent : PcbRef) (cpid : Int) (status : Bool) :
    State × Option WaitResult :=
  if h : 0≤cpid ∧ cpid<MAX_PROC then
    match getPcb s.procs ⟨cpid.toNat,pid_lt h⟩ with
    | none => (s,some (NOPROC,none))
    | some child =>
      if (s.procs.PT child).parent≠some parent then (s,some (NOPROC,none))
      else awaitChild s parent child status
  else (s,some (NOPROC,none))

/-- The loop of wait_for_any_child; the thread waits as t. -/
def awaitAny (s : State) (parent : PcbRef) (status : Bool) (t : Thread) :
    Option (State × Option WaitResult) :=
  if isRlistEmpty s.procs.heap (.exitedList parent) then some (waitChildExit s parent t,none)
  else
    match s.procs.heap.key (s.procs.heap.next (.exitedList parent)) with
    | none => none
    | some child =>
      if (s.procs.PT child).pstate = .ZOMBIE then
        let (procs,stored) := cleanupZombie s.procs child status
        some ({ s with procs := procs },some (getPid (some child),stored))
      else none

def waitForAnyChild (s : State) (parent : PcbRef) (status : Bool) (t : Thread) :
    Option (State × Option WaitResult) :=
  if isRlistEmpty s.procs.heap (.childrenList parent) then some (s,some (NOPROC,none))
  else awaitAny s parent status t

def returnWait (p : PcbRef) (status : Bool) : State × Option WaitResult → State
  | (s,none) => s
  | (s,some (ret,stored)) => s.record (.wait p ret status stored)

def sysWaitChild (s : State) (p : PcbRef) (cpid : Int) (status : Bool) :
    Option (State × Option WaitResult) :=
  if cpid≠NOPROC then some (waitForSpecificChild s p cpid status)
  else waitForAnyChild s p status (.waitAny status)

/-- The WaitChild loop of sys_Exit. True when the loop is left, false when the thread
is waiting in it. -/
def exitLoop (p : PcbRef) (exitval : Int) : Nat → State → Option (State × Bool)
  | 0, _ => none
  | fuel+1, s => (waitForAnyChild s p false (.exitWait exitval)).bind fun
    | (s,none) => some (s,false)
    | (s,some (ret,stored)) =>
      let s := s.record (.wait p ret false stored)
      if ret≠NOPROC then exitLoop p exitval fuel s else some (s,true)

def childFuel : Nat := MAX_PROC+1

/-- The exited children of curproc are handed to the initial task, which is woken. -/
def adoptExited (s : State) (initpcb : Option PcbRef) (curproc : PcbRef) : Option State :=
  if isRlistEmpty s.procs.heap (.exitedList curproc) then some s
  else initpcb.map fun init =>
    broadcastChildExit { s with procs := handOver s.procs init curproc } init

/-- curproc goes to the exited list of its parent, which is woken. -/
def tellParent (s : State) (curproc : PcbRef) : State :=
  match (s.procs.PT curproc).parent with
  | none => s
  | some parent => broadcastChildExit { s with procs := reportExit s.procs parent curproc } parent

/-- sys_Exit after its WaitChild loop. -/
def exitTail (s : State) (curproc : PcbRef) (exitval : Int) : Option State :=
  let procs := s.procs.modPCB curproc fun b => { b with args := none }
  (closeFIDT s.files curproc).bind fun files =>
    let initpcb := getPcb procs initPid
    (reparent initpcb curproc childFuel procs).bind fun procs =>
      (adoptExited { s with procs := procs, files := files } initpcb curproc).map fun s =>
        let s := tellParent s curproc
        { (s.record (.exit curproc exitval)).setThread curproc none with
          procs := markZombie s.procs curproc exitval
          exited := s.exited+1 }

/-- The rest of sys_Exit, unless the thread waits in the loop. -/
def leaveExitLoop (p : PcbRef) (exitval : Int) : State × Bool → Option State
  | (s,true) => exitTail s p exitval
  | (s,false) => some s

def sysExit (s : State) (p : PcbRef) (exitval : Int) : Option State :=
  if p = initPid then
    (exitLoop p exitval childFuel s).bind (leaveExitLoop p exitval)
  else exitTail s p exitval

/-- sys_Read once its device call is done: the temporary reference is dropped. -/
def finishRead (s : State) (fcb : FcbRef) (count : Nat) : Option (State × Option Int) :=
  (decref s.files fcb).map fun (files,_) => ({ s with files := files },some (toInt count))

def waitRxReady (s : State) (p : PcbRef) (fcb : FcbRef) (port size : Nat) : State :=
  { s.setThread p (some (.reading fcb port size)) with
    stopped := Function.update s.stopped p true
    rxReady := Function.update s.rxReady port (s.rxReady port++[p]) }

/-- The device call of sys_Read, from its first poll on: valid is the polls of the
serial port, inp the count of the C library. -/
def devread (s : State) (p : PcbRef) (fcb : FcbRef) (sobj : Option Nat) (size inp : Nat)
    (valid : Nat → Bool) : FileOps → Option (State × Option Int)
  | .nulldev => finishRead s fcb size
  | .stdio => finishRead s fcb (min inp size)
  | .serial => sobj.bind fun port =>
    match serialRead valid size (size+1) 0 with
    | none => some (waitRxReady s p fcb port size,none)
    | some count => finishRead s fcb count

def sysRead (s : State) (p : PcbRef) (fd : Int) (size inp : Nat) (valid : Nat → Bool) :
    Option (State × Option Int) :=
  match getFcb s.files p fd with
  | none => some (s,some (-1))
  | some fcb => (s.files.FT fcb).streamfunc.bind fun ops =>
    devread { s with files := incref s.files fcb } p fcb (s.files.FT fcb).streamobj size inp
      valid ops

/-- serial_rx_handler: all ports are signalled. -/
def serialRxHandler (s : State) : State :=
  { s with
    stopped := fun q => if ∃ i < s.serialPorts, q∈s.rxReady i then false else s.stopped q
    rxReady := fun i => if i < s.serialPorts then [] else s.rxReady i }

/-- A woken thread has the kernel again and goes on after its kernel_wait. -/
def resumeFrom (s : State) (p : PcbRef) (valid : Nat → Bool) : Thread → Option State
  | .user => none
  | .waitChild child status => some (returnWait p status (awaitChild s p child status))
  | .waitAny status => (awaitAny s p status (.waitAny status)).map (returnWait p status)
  | .exitWait exitval => (awaitAny s p false (.exitWait exitval)).bind fun
    | (s,none) => some s
    | (s,some (ret,stored)) => (exitLoop p exitval childFuel (s.record (.wait p ret false stored))).bind
      (leaveExitLoop p exitval)
  | .reading fcb port size => (devread s p fcb (some port) size 0 valid .serial).map Prod.fst

def resume (s : State) (p : PcbRef) (valid : Nat → Bool) : Option State :=
  (s.thread p).bind (resumeFrom (s.setThread p (some .user)) p valid)

inductive Label where
  | exec (p : PcbRef) (call : Bool) (argl : Nat) (args : Option (List UInt8))
  | exit (p : PcbRef) (exitval : Int)
  | waitChild (p : PcbRef) (cpid : Int) (status : Bool)
  | openNull (p : PcbRef)
  | openTerminal (p : PcbRef) (termno : Nat)
  | console (p : PcbRef)
  | close (p : PcbRef) (fd : Int)
  | dup2 (p : PcbRef) (oldfd newfd : Int)
  | read (p : PcbRef) (fd : Int) (size inp : Nat) (valid : Nat → Bool)
  | write (p : PcbRef) (fd : Int) (size fuel out : Nat) (accept : Nat → Bool)
  | resume (p : PcbRef) (valid : Nat → Bool)
  | serialRx
  /-- gain releases the TCB of an exited thread. -/
  | releaseTCB

def Enabled (s : State) : Label → Prop
  | .exec p _ _ _ | .exit p _ | .waitChild p _ _ | .openNull p | .openTerminal p _ | .console p
  | .close p _ | .dup2 p _ _ | .read p _ _ _ _ | .write p _ _ _ _ _ => s.thread p = some .user
  | .resume p _ => s.thread p≠none ∧ s.thread p≠some .user ∧ s.stopped p = false
  | .serialRx => True
  | .releaseTCB => s.exited≠0

def State.withFiles (s : State) (r : Option (Files × Int)) : Option State :=
  r.map fun (files,_) => { s with files := files }

def step (s : State) : Label → Option State
  | .exec p call argl args => some (sysExec s p call argl args).1
  | .exit p exitval => sysExit s p exitval
  | .waitChild p cpid status => (sysWaitChild s p cpid status).map (returnWait p status)
  | .openNull p => s.withFiles (openStream s.files p s.serialPorts .DEV_NULL 0)
  | .openTerminal p termno => s.withFiles (openStream s.files p s.serialPorts .DEV_SERIAL termno)
  | .console p => (pseudoConsole s.files p).map fun files => { s with files := files }
  | .close p fd => s.withFiles (sysClose s.files p fd)
  | .dup2 p oldfd newfd => s.withFiles (sysDup2 s.files p oldfd newfd)
  | .read p fd size inp valid => (sysRead s p fd size inp valid).map Prod.fst
  | .write p fd size fuel out accept => s.withFiles (sysWrite s.files p fd size fuel out accept)
  | .resume p valid => resume s p valid
  | .serialRx => some (serialRxHandler s)
  | .releaseTCB => some { s with exited := s.exited-1, activeThreads := s.activeThreads-1 }

instance (s : State) (a : Label) : Decidable (Enabled s a) :=
  match a with
  | .exec p _ _ _ | .exit p _ | .waitChild p _ _ | .openNull p | .openTerminal p _ | .console p
  | .close p _ | .dup2 p _ _ | .read p _ _ _ _ | .write p _ _ _ _ _ =>
    inferInstanceAs (Decidable (s.thread p = some .user))
  | .resume p _ => inferInstanceAs
    (Decidable (s.thread p≠none ∧ s.thread p≠some .user ∧ s.stopped p = false))
  | .serialRx => inferInstanceAs (Decidable True)
  | .releaseTCB => inferInstanceAs (Decidable (s.exited≠0))

def start (serialPorts : Nat) : State where
  procs := initializeProcesses
  files := initializeFiles
  thread _ := none
  stopped _ := false
  childExit _ := []
  rxReady _ := []
  exited := 0
  activeThreads := 0
  serialPorts := serialPorts
  log := []

/-- boot_tinyos_kernel up to run_scheduler: the scheduler process has no task, the
init process runs the boot task. -/
def boot (serialPorts argl : Nat) (args : Option (List UInt8)) : State :=
  (sysExec (sysExec (start serialPorts) 0 false 0 none).1 0 true argl args).1

def system : Transition.System State Label where
  init s := ∃ serialPorts argl args, serialPorts≤MAX_TERMINALS ∧ s = boot serialPorts argl args
  next s a := if Enabled s a then step s a else none

end TinyOS.Kernel
