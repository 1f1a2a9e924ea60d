import Mathlib.Data.Fintype.Option
import TinyOS.Bios.Model
import TinyOS.Lib.Barrier

/-! The life of the virtual machine: vm_boot and PIC_daemon of bios.c on the thread that
boots, bootfunc_wrapper on one thread for each core, and boot_tinyos_kernel of
kernel_init.c in between. What the kernel runs in the idle threads, and what the PIC finds
when it polls, is left open. -/
namespace TinyOS.Bios.Vm
open Transition

inductive Part where
  | processes | devices | files | scheduler | init
  deriving DecidableEq

inductive CorePc where
  /-- Before pthread_create. -/
  | unborn
  | handlers | mask | timerCreate
  | enterSystem | waitSystem
  | part (p : Part)
  /-- cpu_core_barrier_sync -/
  | enterSync | waitSync
  /-- run_scheduler, with the idle thread in the middle. -/
  | setAlarm | setIci | idle | clearAlarm | clearIci
  | reset | timerDelete
  | enterCore | waitCore
  | stopPic | interruptPic
  | enterLast | waitLast
  | ended
  deriving DecidableEq

inductive PicPc where
  | start
  | create (c : Nat)
  | setTerminals
  | openTerminal (i : Nat)
  | block
  | enterSystem | waitSystem
  /-- while(PIC_active), and the body of the loop. -/
  | test | loop
  | enterLast | waitLast
  | drain | unblock
  | closeTerminal (i : Nat)
  | join (c : Nat)
  | destroy
  | returned
  deriving DecidableEq

/-- What goes wrong beyond the C standard and POSIX, or in an assertion. -/
inductive Fault where
  /-- pthread_sigqueue to a thread that does not exist. -/
  | noThread
  /-- sigusr1_handler runs on the PIC, for the core -1. -/
  | picHandler
  /-- pthread_barrier_destroy of a barrier that is waited at. -/
  | barrier
  /-- assert(core < ncores) -/
  | assertion
  deriving DecidableEq

structure Cpu where
  pc : CorePc
  intvec : Interrupt → Option Handler
  /-- All signals but SIGUSR1 are blocked. -/
  masked : Bool
  /-- timer_id is the timer of the core. -/
  timer : Bool

structure State (n : Nat) where
  system : Barrier (Option (Fin n))
  core : Barrier (Fin n)
  cpu : Fin n → Cpu
  pic : PicPc
  picActive : Bool
  ncores : Nat
  nterm : Nat
  /-- The terminals that are open. -/
  terms : Nat
  /-- The parts of the kernel that have been initialised, in order. -/
  booted : List Part
  /-- devnum of DEV_SERIAL. -/
  devnum : Nat
  /-- SIGUSR1 and SIGALRM are blocked on the PIC, which reads them by signalfd. -/
  blocked : Bool
  /-- SIGUSR1 signals queued at the PIC. -/
  queued : Nat
  fault : Option Fault

section
variable {n : Nat}

def State.setCpu (s : State n) (c : Fin n) (k : Cpu) : State n :=
  { s with cpu := Function.update s.cpu c k }

def State.picTo (s : State n) (p : PicPc) : State n := { s with pic := p }

def State.fail (s : State n) (f : Fault) : State n := { s with fault := some f }

def Cpu.interruptHandler (k : Cpu) (i : Interrupt) (h : Option Handler) : Cpu :=
  { k with intvec := Function.update k.intvec i h }

def Cpu.goto (k : Cpu) (p : CorePc) : Cpu := { k with pc := p }

def CorePc.live (p : CorePc) : Bool := p≠.unborn && p≠.ended

def State.raiseInterrupt (s : State n) (c : Fin n) : State n :=
  if (s.cpu c).pc.live then s else s.fail .noThread

def State.cpuIci (s : State n) (c : Fin n) : State n :=
  if c < s.ncores then s.raiseInterrupt c else s.fail .assertion

def State.interruptPicThread (s : State n) : State n :=
  if s.blocked then { s with queued := s.queued+1 } else s.fail .picHandler

/-- The parts of the kernel: what the others see of them, and the core that runs them. -/
def State.boot (s : State n) : Part → State n
  | .devices => { s with devnum := s.nterm, booted := s.booted++[.devices] }
  | p => { s with booted := s.booted++[p] }

def Cpu.boot (k : Cpu) : Part → Cpu
  | .devices =>
    (k.interruptHandler .SERIAL_RX_READY (some .serialRxHandler)).interruptHandler
      .SERIAL_TX_READY (some .serialTxHandler)
  | _ => k

def Part.next : Part → CorePc
  | .processes => .part .devices
  | .devices => .part .files
  | .files => .part .scheduler
  | .scheduler => .part .init
  | .init => .enterSync

def State.runCore (s : State n) (c : Fin n) (k : Cpu) : CorePc → Option (State n)
  | .unborn => none
  | .handlers => some (s.setCpu c { k with intvec := fun _ => none, pc := .mask })
  | .mask => some (s.setCpu c { k with masked := true, pc := .timerCreate })
  | .timerCreate => some (s.setCpu c { k with timer := true, pc := .enterSystem })
  | .enterSystem =>
    some ({ s with system := s.system.enter (n+1) (some c) }.setCpu c (k.goto .waitSystem))
  | .waitSystem =>
    if s.system.Released (some c) then
      some ({ s with system := s.system.leave (some c) }.setCpu c
        (k.goto (if c.val = 0 then .part .processes else .enterSync)))
    else none
  | .part p => some ((s.boot p).setCpu c ((k.boot p).goto p.next))
  | .enterSync => some ({ s with core := s.core.enter n c }.setCpu c (k.goto .waitSync))
  | .waitSync =>
    if s.core.Released c then
      some ({ s with core := s.core.leave c }.setCpu c (k.goto .setAlarm))
    else none
  | .setAlarm => some (s.setCpu c ((k.interruptHandler .ALARM (some .yieldHandler)).goto .setIci))
  | .setIci => some (s.setCpu c ((k.interruptHandler .ICI (some .iciHandler)).goto .idle))
  | .idle => some (s.setCpu c (k.goto .clearAlarm))
  | .clearAlarm => some (s.setCpu c ((k.interruptHandler .ALARM none).goto .clearIci))
  | .clearIci => some (s.setCpu c ((k.interruptHandler .ICI none).goto .reset))
  | .reset => some (s.setCpu c { k with intvec := fun _ => none, pc := .timerDelete })
  | .timerDelete => some (s.setCpu c { k with timer := false, pc := .enterCore })
  | .enterCore => some ({ s with core := s.core.enter n c }.setCpu c (k.goto .waitCore))
  | .waitCore =>
    if s.core.Released c then
      some ({ s with core := s.core.leave c }.setCpu c
        (k.goto (if c.val = 0 then .stopPic else .enterLast)))
    else none
  | .stopPic => some ({ s with picActive := false }.setCpu c (k.goto .interruptPic))
  | .interruptPic => some (s.interruptPicThread.setCpu c (k.goto .enterLast))
  | .enterLast =>
    some ({ s with system := s.system.enter (n+1) (some c) }.setCpu c (k.goto .waitLast))
  | .waitLast =>
    if s.system.Released (some c) then
      some ({ s with system := s.system.leave (some c) }.setCpu c (k.goto .ended))
    else none
  | .ended => none

def State.barriersFree (s : State n) : Bool :=
  (s.system.ticket none).isNone && decide (∀ c, s.system.ticket (some c) = none) &&
    decide (∀ c, s.core.ticket c = none)

def State.runPic (serialno : Nat) (s : State n) : PicPc → Option (State n)
  | .start =>
    some ({ s with
      picActive := true
      system := Barrier.fresh (Option (Fin n))
      core := Barrier.fresh (Fin n)
      ncores := n }.picTo (.create 0))
  | .create c =>
    if h : c < n then some ((s.setCpu ⟨c,h⟩ ((s.cpu ⟨c,h⟩).goto .handlers)).picTo (.create (c+1)))
    else some (s.picTo .setTerminals)
  | .setTerminals => some ({ s with nterm := serialno }.picTo (.openTerminal 0))
  | .openTerminal i =>
    if i < s.nterm then some ({ s with terms := s.terms+1 }.picTo (.openTerminal (i+1)))
    else some (s.picTo .block)
  | .block => some ({ s with blocked := true }.picTo .enterSystem)
  | .enterSystem => some ({ s with system := s.system.enter (n+1) none }.picTo .waitSystem)
  | .waitSystem =>
    if s.system.Released none then
      some ({ s with system := s.system.leave none }.picTo .test)
    else none
  | .test => if s.picActive then some (s.picTo .loop) else some (s.picTo .enterLast)
  | .loop => some (s.picTo .test)
  | .enterLast => some ({ s with system := s.system.enter (n+1) none }.picTo .waitLast)
  | .waitLast =>
    if s.system.Released none then
      some ({ s with system := s.system.leave none }.picTo .drain)
    else none
  | .drain => some ({ s with queued := 0 }.picTo .unblock)
  | .unblock =>
    if s.queued = 0 then some ({ s with blocked := false }.picTo (.closeTerminal 0))
    else some (s.fail .picHandler)
  | .closeTerminal i =>
    if i < s.nterm then some ({ s with terms := s.terms-1 }.picTo (.closeTerminal (i+1)))
    else some ({ s with nterm := 0 }.picTo (.join 0))
  | .join c =>
    if h : c < n then
      if (s.cpu ⟨c,h⟩).pc = .ended then some (s.picTo (.join (c+1))) else none
    else some (s.picTo .destroy)
  | .destroy =>
    if s.barriersFree then some ({ s with ncores := 0 }.picTo .returned)
    else some (s.fail .barrier)
  | .returned => none

inductive Label (n : Nat) where
  | core (c : Fin n)
  /-- cpu_ici by a thread on core c. -/
  | ici (c d : Fin n)
  /-- io_device_read or io_device_write by a thread on core c. -/
  | transfer (c : Fin n)
  | pic
  /-- The PIC raises an interrupt. -/
  | raise (d : Fin n)
  /-- The PIC reads the SIGUSR1 signals. -/
  | drain

def State.exec (serialno : Nat) (s : State n) (a : Label n) : Option (State n) :=
  if s.fault.isSome then none
  else match a with
    | .core c => s.runCore c (s.cpu c) (s.cpu c).pc
    | .ici c d => if (s.cpu c).pc = .idle then some (s.cpuIci d) else none
    | .transfer c => if (s.cpu c).pc = .idle then some s.interruptPicThread else none
    | .pic => s.runPic serialno s.pic
    | .raise d => if s.pic = .loop then some (s.raiseInterrupt d) else none
    | .drain => if s.pic = .loop then some { s with queued := 0 } else none

def boot (n : Nat) : State n where
  system := Barrier.fresh (Option (Fin n))
  core := Barrier.fresh (Fin n)
  cpu _ := ⟨.unborn,fun _ => none,false,false⟩
  pic := .start
  picActive := false
  ncores := 0
  nterm := 0
  terms := 0
  booted := []
  devnum := 0
  blocked := false
  queued := 0
  fault := none

def system (n serialno : Nat) : System (State n) (Label n) where
  init s := s = boot n
  next := State.exec serialno

end

end TinyOS.Bios.Vm
