import TinyOS.Kernel.Dev
import TinyOS.Kernel.Proc

/-! The streams of kernel_streams.c: the file table FT with its free list and the
FIDT of each process. Running through a NULL pointer is none. -/
namespace TinyOS.Kernel
open RList

abbrev MAX_FILEID : Nat := 16

abbrev MAX_FILES : Nat := MAX_PROC

def NOFILE : Int := -1

abbrev FcbRef := Fin MAX_FILES

abbrev Fid := Fin MAX_FILEID

instance fidNeZero : NeZero MAX_FILEID := ⟨by decide⟩

structure FCB where
  refcount : UInt32
  streamobj : Option Nat
  streamfunc : Option FileOps

inductive FNode where
  | FCB_freelist
  | freelistNode (f : FcbRef)
  deriving DecidableEq

inductive StreamEvent where
  | opened (f : FcbRef)
  | closed (f : FcbRef)
  deriving DecidableEq

structure Files where
  FIDT : PcbRef → Fid → Option FcbRef
  FT : FcbRef → FCB
  heap : Heap FNode (Option FcbRef)
  log : List StreamEvent

def Files.modFCB (F : Files) (f : FcbRef) (g : FCB → FCB) : Files :=
  { F with FT := Function.update F.FT f (g (F.FT f)) }

def Files.setFid (F : Files) (p : PcbRef) (fid : Fid) (f : Option FcbRef) : Files :=
  { F with FIDT := Function.update F.FIDT p (Function.update (F.FIDT p) fid f) }

def fnodeKey : FNode → Option FcbRef
  | .FCB_freelist => none
  | .freelistNode f => some f

def releaseFCB (F : Files) (f : FcbRef) : Files :=
  { F with heap := rlistPushBack F.heap .FCB_freelist (.freelistNode f) }

def zeroFiles : Files :=
  { FIDT _ _ := none, FT _ := ⟨0,none,none⟩, heap := ⟨fnodeKey,id,id⟩, log := [] }

/-- initialize_files, after initialize_processes. -/
def initializeFiles : Files := (List.finRange MAX_FILES).foldl releaseFCB zeroFiles

def acquireFCB (F : Files) : Option (Files × Option FcbRef) :=
  if isRlistEmpty F.heap .FCB_freelist then some (F,none)
  else
    let (heap,n) := rlistPopFront F.heap .FCB_freelist
    match heap.key n with
    | none => none
    | some f => some ({ F with heap := heap }.modFCB f fun b => { b with refcount := 0 },some f)

def incref (F : Files) (f : FcbRef) : Files :=
  F.modFCB f fun b => { b with refcount := b.refcount+1 }

def decref (F : Files) (f : FcbRef) : Option (Files × Int) :=
  let F := F.modFCB f fun b => { b with refcount := b.refcount-1 }
  if (F.FT f).refcount = 0 then
    (F.FT f).streamfunc.map fun ops =>
      (releaseFCB { F with log := F.log++[.closed f] } f,ops.close)
  else some (F,0)

/-- Skip the fids in use, from f on. -/
def skipUsed (T : Fid → Option FcbRef) : Nat → Nat → Nat
  | 0, f => f
  | fuel+1, f =>
    if h : f<MAX_FILEID then
      if (T ⟨f,h⟩).isSome then skipUsed T fuel (f+1) else f
    else f

/-- The distinct fids found from f on, at most num. -/
def findFids (T : Fid → Option FcbRef) : Nat → Nat → List Fid
  | 0, _ => []
  | num+1, f =>
    let f := skipUsed T (MAX_FILEID-f) f
    if h : f<MAX_FILEID then ⟨f,h⟩::findFids T num (f+1) else []

/-- The FCBs acquired before the free list is empty, at most num. -/
def acquireFCBs : Nat → Files → Option (Files × List FcbRef)
  | 0, F => some (F,[])
  | num+1, F => (acquireFCB F).bind fun
    | (F,none) => some (F,[])
    | (F,some f) => (acquireFCBs num F).map fun (F,fs) => (F,f::fs)

def installFCB (p : PcbRef) (F : Files) (x : Fid × FcbRef) : Files :=
  incref (F.setFid p x.1 (some x.2)) x.2

/-- FCB_reserve: the fids and FCBs, or none after rolling back. -/
def reserveFCB (F : Files) (p : PcbRef) (num : Nat) :
    Option (Files × Option (List Fid × List FcbRef)) :=
  let fids := findFids (F.FIDT p) num 0
  if fids.length<num then some (F,none)
  else (acquireFCBs num F).map fun (F,fcbs) =>
    if fcbs.length<num then (fcbs.reverse.foldl releaseFCB F,none)
    else ((fids.zip fcbs).foldl (installFCB p) F,some (fids,fcbs))

def unreserveFCB (p : PcbRef) : List (Fid × FcbRef) → Files → Option Files
  | [], F => some F
  | x::xs, F =>
    if F.FIDT p x.1 = some x.2 then
      unreserveFCB p xs (releaseFCB (F.setFid p x.1 none) x.2)
    else none

/-- The stream of an FCB in use is set, by device_open or by the console. -/
def setStream (F : Files) (f : FcbRef) (obj : Option Nat) (ops : FileOps) : Files :=
  { F.modFCB f fun b => { b with streamobj := obj, streamfunc := some ops } with
    log := F.log++[.opened f] }

def openStream (F : Files) (p : PcbRef) (ports : Nat) (major : DeviceType) (minor : Nat) :
    Option (Files × Int) :=
  (reserveFCB F p 1).bind fun
    | (F,some (fid::fids,fcb::fcbs)) =>
      match deviceOpen ports major minor with
      | none => (unreserveFCB p ((fid::fids).zip (fcb::fcbs)) F).map fun F => (F,NOFILE)
      | some (obj,ops) => some (setStream F fcb obj ops,fid.val)
    | (F,_) => some (F,NOFILE)

/-- tinyos_pseudo_console; an abort is none. -/
def pseudoConsole (F : Files) (p : PcbRef) : Option Files :=
  (reserveFCB F p 2).bind fun
    | (F,some ([0,1],[in',out])) => some (setStream (setStream F in' none .stdio) out none .stdio)
    | _ => none

theorem fid_lt {fid : Int} (h : 0≤fid ∧ fid<MAX_FILEID) : fid.toNat < MAX_FILEID := by
  omega

def getFcb (F : Files) (p : PcbRef) (fid : Int) : Option FcbRef :=
  if h : 0≤fid ∧ fid<MAX_FILEID then F.FIDT p ⟨fid.toNat,fid_lt h⟩ else none

def setFcb (F : Files) (p : PcbRef) (fid : Int) (f : Option FcbRef) : Files :=
  if h : 0≤fid ∧ fid<MAX_FILEID then F.setFid p ⟨fid.toNat,fid_lt h⟩ f else F

def sysClose (F : Files) (p : PcbRef) (fd : Int) : Option (Files × Int) :=
  match getFcb F p fd with
  | none => some (F,if 0≤fd ∧ fd<MAX_FILEID then 0 else -1)
  | some fcb => decref (setFcb F p fd none) fcb

/-- The FCB that a slot held before, if any, loses its reference. -/
def decrefOld (F : Files) : Option FcbRef → Option Files
  | none => some F
  | some f => (decref F f).map Prod.fst

def sysDup2 (F : Files) (p : PcbRef) (oldfd newfd : Int) : Option (Files × Int) :=
  if oldfd<0 ∨ newfd<0 ∨ oldfd≥MAX_FILEID ∨ newfd≥MAX_FILEID then some (F,-1)
  else match getFcb F p oldfd, getFcb F p newfd with
    | none, _ => some (F,-1)
    | some old, new =>
      if some old≠new then
        (decrefOld F new).map fun F => (setFcb (incref F old) p newfd (some old),0)
      else some (F,0)

/-- What the Write method returns: out is the count of the C library, accept the polls
of the serial port. -/
def FileOps.write (size fuel out : Nat) (accept : Nat → Bool) : FileOps → Option Nat
  | .nulldev => some size
  | .stdio => some (min out size)
  | .serial => serialWrite accept size fuel 0 0

def sysWrite (F : Files) (p : PcbRef) (fd : Int) (size fuel out : Nat) (accept : Nat → Bool) :
    Option (Files × Int) :=
  match getFcb F p fd with
  | none => some (F,-1)
  | some fcb => (F.FT fcb).streamfunc.bind fun ops =>
    (ops.write size fuel out accept).bind fun count =>
      (decref (incref F fcb) fcb).map fun r => (r.1,toInt count)

/-- The file streams a new process inherits. -/
def inheritFid (curproc newproc : PcbRef) (F : Files) (fid : Fid) : Files :=
  match F.FIDT curproc fid with
  | none => F.setFid newproc fid none
  | some f => incref (F.setFid newproc fid (some f)) f

def inheritFIDT (F : Files) (curproc newproc : PcbRef) : Files :=
  (List.finRange MAX_FILEID).foldl (inheritFid curproc newproc) F

def closeFid (p : PcbRef) (F : Files) (fid : Fid) : Option Files :=
  match F.FIDT p fid with
  | none => some F
  | some f => (decref F f).map fun (F,_) => F.setFid p fid none

/-- The clean-up of the FIDT in sys_Exit. -/
def closeFIDT (F : Files) (p : PcbRef) : Option Files :=
  (List.finRange MAX_FILEID).foldlM (closeFid p) F

end TinyOS.Kernel
