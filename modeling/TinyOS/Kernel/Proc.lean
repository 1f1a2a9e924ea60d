import TinyOS.Util.RList

/-! The process table of kernel_proc.c: the PCBs, their free list and the rings of
children and exited children. A PCB pointer is its index in PT, which is its pid. -/
namespace TinyOS.Kernel
open RList

abbrev MAX_PROC : Nat := 65536

def NOPROC : Int := -1

abbrev PcbRef := Fin MAX_PROC

instance procNeZero : NeZero MAX_PROC := ⟨by decide⟩

theorem pid_lt {pid : Int} (h : 0≤pid ∧ pid<MAX_PROC) : pid.toNat < MAX_PROC := by
  omega

def initPid : PcbRef := 1

inductive PidState where
  | FREE | ALIVE | ZOMBIE
  deriving DecidableEq

/-- The FIDT of a PCB is kept with the files, child_exit with the threads. -/
structure PCB where
  pstate : PidState
  parent : Option PcbRef
  exitval : Int
  argl : Nat
  args : Option (List UInt8)

inductive PNode where
  | childrenList (p : PcbRef)
  | exitedList (p : PcbRef)
  | childrenNode (p : PcbRef)
  | exitedNode (p : PcbRef)
  deriving DecidableEq

structure Procs where
  PT : PcbRef → PCB
  heap : Heap PNode (Option PcbRef)
  pcbFreelist : Option PcbRef
  processCount : UInt32

def Procs.modPCB (P : Procs) (p : PcbRef) (f : PCB → PCB) : Procs :=
  { P with PT := Function.update P.PT p (f (P.PT p)) }

def getPid : Option PcbRef → Int
  | none => NOPROC
  | some p => p.val

/-- get_pcb, for a pid in range. -/
def getPcb (P : Procs) (p : PcbRef) : Option PcbRef :=
  if (P.PT p).pstate = .FREE then none else some p

def pnodeKey : PNode → Option PcbRef
  | .childrenList _ | .exitedList _ => none
  | .childrenNode p | .exitedNode p => some p

def initializePCB : Procs where
  PT _ := ⟨.FREE,none,0,0,none⟩
  heap := ⟨pnodeKey,id,id⟩
  pcbFreelist := none
  processCount := 0

/-- Put p at the head of the free list, through its parent field. -/
def pushFree (p : PcbRef) (P : Procs) : Procs :=
  { P.modPCB p fun pcb => { pcb with parent := P.pcbFreelist } with pcbFreelist := some p }

/-- initialize_processes before its call of Exec: the free list is built from the end. -/
def initializeProcesses : Procs := (List.finRange MAX_PROC).foldr pushFree initializePCB

def acquirePCB (P : Procs) : Procs × Option PcbRef :=
  match P.pcbFreelist with
  | none => (P,none)
  | some pcb =>
    ({ P.modPCB pcb fun b => { b with pstate := .ALIVE } with
        pcbFreelist := (P.PT pcb).parent
        processCount := P.processCount+1 },some pcb)

def releasePCB (P : Procs) (pcb : PcbRef) : Procs :=
  { P.modPCB pcb fun b => { b with pstate := .FREE, parent := P.pcbFreelist } with
    pcbFreelist := some pcb
    processCount := P.processCount-1 }

/-- The parent of a new process: none for the scheduler and the init process. -/
def inheritParent (P : Procs) (curproc newproc : PcbRef) : Procs :=
  if newproc.val≤1 then P.modPCB newproc fun b => { b with parent := none }
  else
    { P.modPCB newproc fun b => { b with parent := some curproc } with
      heap := rlistPushFront P.heap (.childrenList curproc) (.childrenNode newproc) }

/-- Copy the arguments to new storage, owned by the new process. -/
def copyArgs (P : Procs) (newproc : PcbRef) (argl : Nat) (args : Option (List UInt8)) : Procs :=
  P.modPCB newproc fun b => { b with argl := argl, args := args.map (List.take argl) }

/-- cleanup_zombie, with the value stored through status. -/
def cleanupZombie (P : Procs) (pcb : PcbRef) (status : Bool) : Procs × Option Int :=
  let heap := rlistRemove (rlistRemove P.heap (.childrenNode pcb)) (.exitedNode pcb)
  (releasePCB { P with heap := heap } pcb,if status then some (P.PT pcb).exitval else none)

/-- The loop of sys_Exit that reparents the children of curproc. -/
def reparent (initpcb : Option PcbRef) (curproc : PcbRef) : Nat → Procs → Option Procs
  | 0, _ => none
  | fuel+1, P =>
    if isRlistEmpty P.heap (.childrenList curproc) then some P
    else
      let (heap,child) := rlistPopFront P.heap (.childrenList curproc)
      match heap.key child, initpcb with
      | some pcb, some init => reparent initpcb curproc fuel
        { P.modPCB pcb fun b => { b with parent := some init } with
          heap := rlistPushFront heap (.childrenList init) child }
      | _, _ => none

/-- The exited children of curproc go to the list of the initial task. -/
def handOver (P : Procs) (init curproc : PcbRef) : Procs :=
  { P with heap := rlistAppend P.heap (.exitedList init) (.exitedList curproc) }

/-- Put curproc into its parent's exited list. -/
def reportExit (P : Procs) (parent curproc : PcbRef) : Procs :=
  { P with heap := rlistPushFront P.heap (.exitedList parent) (.exitedNode curproc) }

def markZombie (P : Procs) (curproc : PcbRef) (exitval : Int) : Procs :=
  P.modPCB curproc fun b => { b with pstate := .ZOMBIE, exitval := exitval }

end TinyOS.Kernel
