import TinyOS.CC.Steps
import TinyOS.Kernel.Dev

/-! Reading from the terminals: sys_Read and serial_read over the kernel lock and the
condition variables of kernel_cc.c. A poll of a port is one step. Which FCB a fid names is
left open, and a handler such as serial_rx_handler is a thread of its own. -/
namespace TinyOS.Terminal

inductive Cv (π γ : Type*) where
  | rxReady (port : π)
  | other (c : γ)
  deriving DecidableEq

inductive ReadPc where
  /-- kernel_lock of the system call, the loop of serial_read, or kernel_wait in it. -/
  | loop
  /-- Behind the loop. -/
  | ret
  /-- kernel_unlock of the system call. -/
  | unlock
  deriving DecidableEq

structure Read (π β : Type*) where
  port : π
  size : Nat
  buf : List β
  pc : ReadPc
  deriving DecidableEq

structure Left (π β : Type*) where
  port : π
  size : Nat
  bytes : List β
  ret : Int
  deriving DecidableEq

structure State (τ π γ μ β : Type*) where
  cc : CC.State τ (Cv π γ) μ
  reading : τ → Option (Read π β)
  /-- How many bytes bios_read_serial has given. -/
  pos : π → Nat
  left : List (Left π β)

section
variable {τ π γ μ β : Type*} [DecidableEq τ] [DecidableEq π] [DecidableEq γ] [DecidableEq μ]

def State.steps (m : State τ π γ μ β) (a : CC.Label τ (Cv π γ) μ) : Option (State τ π γ μ β) :=
  if CC.Enabled m.cc a then (CC.exec m.cc a).map fun cc => { m with cc := cc } else none

def State.setRead (m : State τ π γ μ β) (t : τ) (r : Option (Read π β)) : State τ π γ μ β :=
  { m with reading := Function.update m.reading t r }

/-- bios_read_serial gives the next byte to the call. -/
def State.takeByte (input : π → Nat → β) (m : State τ π γ μ β) (t : τ) (r : Read π β) : State τ π γ μ β :=
  { m.setRead t (some { r with buf := r.buf++[input r.port (m.pos r.port)] }) with
    pos := Function.update m.pos r.port (m.pos r.port+1) }

/-- One pass of the loop of serial_read, where bios_read_serial finds a byte or not. -/
def serialRead (input : π → Nat → β) (m : State τ π γ μ β) (t : τ) (r : Read π β) (valid : Bool) :
    Option (State τ π γ μ β) :=
  if r.buf.length < r.size then
    if valid then some (m.takeByte input t r)
    else if r.buf.length = 0 then m.steps (.call t (.kernelWait (.rxReady r.port) false))
    else some (m.setRead t (some { r with pc := .ret }))
  else some (m.setRead t (some { r with pc := .ret }))

/-- The call leaves the kernel. -/
def State.leave (m : State τ π γ μ β) (t : τ) (r : Read π β) : State τ π γ μ β :=
  { m.setRead t none with
    left := m.left++[⟨r.port,r.size,r.buf,Kernel.toInt r.buf.length⟩] }

/-- A thread takes its next step in kernel_cc.c, which may be the kernel_sem++ of the
kernel_unlock that ends a Read. -/
def run (m : State τ π γ μ β) (t : τ) : Option (State τ π γ μ β) :=
  (m.steps (.run t)).map fun m' =>
    match m.cc.pc t, m.reading t with
    | .incr .kernelUnlock, some r => m'.leave t r
    | _, _ => m'

inductive Label (τ π γ μ : Type*) where
  /-- A call into kernel_cc.c of a thread that is not in a Read. -/
  | call (t : τ) (c : CC.Call (Cv π γ) μ)
  | run (t : τ)
  | expire (t : τ)
  | read (t : τ) (port : π) (size : Nat)
  | poll (t : τ) (valid : Bool)
  | unlock (t : τ)

def next (input : π → Nat → β) (m : State τ π γ μ β) : Label τ π γ μ → Option (State τ π γ μ β)
  | .call t c => if (m.reading t).isNone then m.steps (.call t c) else none
  | .run t => run m t
  | .expire t => m.steps (.expire t)
  | .read t port size =>
    -- the size is an unsigned int
    if (m.reading t).isNone ∧ m.cc.inside t = false ∧ size < 2^32 then
      (m.steps (.call t .kernelLock)).map fun m => m.setRead t (some ⟨port,size,[],.loop⟩)
    else none
  | .poll t valid => (m.reading t).bind fun r =>
    if r.pc = .loop ∧ m.cc.pc t = .user ∧ m.cc.stopped t = false then serialRead input m t r valid
    else none
  | .unlock t => (m.reading t).bind fun r =>
    if r.pc = .ret then
      (m.steps (.call t .kernelUnlock)).map fun m => m.setRead t (some { r with pc := .unlock })
    else none

def boot : State τ π γ μ β := ⟨CC.boot,fun _ => none,fun _ => 0,[]⟩

variable (τ γ μ)

def system (input : π → Nat → β) : Transition.System (State τ π γ μ β) (Label τ π γ μ) where
  init m := m = boot
  next := next input

end

end TinyOS.Terminal
