import TinyOS.Kernel.Args
import TinyOS.Util.Argv

/-! Execute of tinyoslib.c: a program and its string vector go through Exec to the main
thread of a new process, which unpacks them and calls the program. -/
namespace TinyOS.Kernel
open Argv

/-- A Program is a pointer of 8 bytes. -/
abbrev Program := BitVec 64

def pointerBytes : Nat → Nat → List UInt8
  | 0, _ => []
  | n+1, v => UInt8.ofNat v::pointerBytes n (v/256)

def pointerValue : List UInt8 → Nat
  | [] => 0
  | b::bs => b.toNat+256*pointerValue bs

abbrev sizeofProgram : Nat := 8

inductive Task where
  | execWrapper
  | other (address : Nat)
  deriving DecidableEq

/-- The call of a program. A string is given by the buffer from its first byte on. -/
structure ProgramCall where
  prog : Program
  argc : Nat
  argv : List (List UInt8)
  deriving DecidableEq

/-- exec_wrapper up to its call. -/
def execWrapper (argl : Int) (args : List UInt8) : Option ProgramCall :=
  if args.length<sizeofProgram then none
  else
    let prog := BitVec.ofNat 64 (pointerValue (args.take sizeofProgram))
    let argl := argl-sizeofProgram
    let args := args.drop sizeofProgram
    (argscount argl.toNat args).bind fun argc => (argvunpack argc args).map
      fun (argv,_) => ⟨prog,argc,argv⟩

/-- The kernel, the main_task of each PCB and the memory of the programs. -/
structure Machine where
  kernel : State
  mainTask : PcbRef → Option Task
  mem : Memory

def runMainThread (m : Machine) (curproc : PcbRef) : Option ProgramCall :=
  match m.mainTask curproc, (m.kernel.procs.PT curproc).args with
  | some .execWrapper, some args => execWrapper (m.kernel.procs.PT curproc).argl args
  | _, _ => none

/-- Exec: sys_Exec with the task it stores in the new PCB. -/
def Machine.exec (m : Machine) (p : PcbRef) (call : Option Task) (argl : Nat)
    (args : Option (List UInt8)) : Machine × Int :=
  let r := sysExec m.kernel p call.isSome argl args
  ({ m with
      kernel := r.1
      mainTask := match (acquirePCB m.kernel.procs).2 with
        | none => m.mainTask
        | some newproc => Function.update m.mainTask newproc call },r.2)

/-- Execute; stack is what the local buffer holds at first. -/
def Machine.execute (m : Machine) (p : PcbRef) (prog : Program) (argv : List Nat)
    (stack : Nat → UInt8) : Option (Machine × Int) :=
  (argvlen m.mem argv).bind fun len =>
    let argl := len+sizeofProgram
    let args := (List.range argl).map stack
    let args := pointerBytes sizeofProgram prog.toNat++args.drop sizeofProgram
    (argvpack m.mem args sizeofProgram argv).map fun (args,_) =>
      m.exec p (some .execWrapper) (toInt argl).toNat (some args)

inductive Action where
  | exec (p : PcbRef) (call : Option Task) (argl : Nat) (args : Option (List UInt8))
  | execute (p : PcbRef) (prog : Program) (argv : List Nat) (stack : Nat → UInt8)
  /-- A step of the kernel other than Exec. -/
  | kernel (a : Label)
  /-- A program writes to memory. -/
  | write (addr : Nat) (b : UInt8)

def Action.proc : Action → Option PcbRef
  | .exec p _ _ _ | .execute p _ _ _ => some p
  | .kernel a => a.proc
  | .write _ _ => none

def Label.isExec : Label → Bool
  | .exec _ _ _ _ => true
  | _ => false

def Machine.next (m : Machine) : Action → Option Machine
  | .exec p call argl args =>
    if m.kernel.thread p = some .user then some (m.exec p call argl args).1 else none
  | .execute p prog argv stack =>
    if m.kernel.thread p = some .user then (m.execute p prog argv stack).map Prod.fst else none
  | .kernel a => if a.isExec then none else (system.next m.kernel a).map fun k => { m with kernel := k }
  | .write addr b => some { m with mem := Function.update m.mem addr b }

def machine : Transition.System Machine Action where
  init m := system.init m.kernel
  next := Machine.next

theorem length_pointerBytes (n v : Nat) : (pointerBytes n v).length = n := by
  induction n generalizing v with
  | zero => rfl
  | succ n ih => rw [pointerBytes, List.length_cons, ih]

theorem pointerValue_pointerBytes (n v : Nat) : pointerValue (pointerBytes n v) = v%256^n := by
  induction n generalizing v with
  | zero => simp [pointerBytes, pointerValue, Nat.mod_one]
  | succ n ih =>
    rw [pointerBytes, pointerValue, ih, Nat.pow_succ', Nat.mod_mul]
    simp

def packedArgs (prog : Program) (strs : List (List UInt8)) : List UInt8 :=
  pointerBytes sizeofProgram prog.toNat++packed strs

theorem length_packedArgs (prog : Program) (strs : List (List UInt8)) :
    (packedArgs prog strs).length = (packed strs).length+sizeofProgram := by
  rw [packedArgs, List.length_append, length_pointerBytes, Nat.add_comm]

theorem execWrapper_packedArgs {strs : List (List UInt8)} (h : ∀ str∈strs, ∀ b∈str, b≠0)
    (prog : Program) :
    ∃ argv, execWrapper (packedArgs prog strs).length (packedArgs prog strs) =
      some ⟨prog,strs.length,argv⟩ ∧ argv.map cString = strs := by
  obtain ⟨argv,hargv,hmap⟩ := argvunpack_packed h []
  have hlen := length_pointerBytes sizeofProgram prog.toNat
  have hprog : BitVec.ofNat 64 (pointerValue (pointerBytes sizeofProgram prog.toNat)) = prog := by
    rw [pointerValue_pointerBytes, show (256:Nat)^sizeofProgram = 2^64 from rfl,
      Nat.mod_eq_of_lt prog.isLt, BitVec.ofNat_toNat, BitVec.setWidth_eq]
  have hnot : ¬(packedArgs prog strs).length<sizeofProgram := by
    rw [length_packedArgs]
    omega
  have htake : (packedArgs prog strs).take sizeofProgram = pointerBytes sizeofProgram
    prog.toNat := by
    rw [packedArgs, List.take_append_of_le_length (by omega), List.take_of_length_le (by omega)]
  have hdrop : (packedArgs prog strs).drop sizeofProgram = packed strs := by
    rw [packedArgs, List.drop_left' hlen]
  have hargl : ((packedArgs prog strs).length-(sizeofProgram : Int)).toNat =
    (packed strs).length := by
    rw [length_packedArgs]
    omega
  refine ⟨argv,?_,hmap⟩
  rw [List.append_nil] at hargv
  rw [execWrapper, if_neg hnot]
  simp only [htake, hdrop, hargl, argscount_packed h, Option.bind_some, hargv, hprog,
    Option.map_some]

theorem execute_eq {m : Machine} {argv : List Nat} {strs : List (List UInt8)}
    (h : List.Forall₂ (StringAt m.mem) argv strs)
    (hsize : (packed strs).length+sizeofProgram≤INT_MAX)
    (p : PcbRef) (prog : Program) (stack : Nat → UInt8) : m.execute p prog argv stack =
      some (m.exec p (some .execWrapper) (packedArgs prog strs).length
      (some (packedArgs prog strs))) := by
  have hmem : (packed strs).length<ADDRESS_SPACE := by
    have : INT_MAX<ADDRESS_SPACE := by decide
    exact Nat.lt_of_le_of_lt (Nat.le_of_add_right_le hsize) this
  have hint : (toInt ((packed strs).length+sizeofProgram)).toNat = (packedArgs prog
    strs).length := by
    rw [length_packedArgs, toInt_eq hsize, Int.toNat_natCast]
  have hpack := argvpack_eq h hmem (pointerBytes sizeofProgram prog.toNat)
    (((List.range ((packed strs).length+sizeofProgram)).map stack).drop sizeofProgram) (by simp)
  rw [length_pointerBytes] at hpack
  rw [Machine.execute, argvlen_eq h hmem, Option.bind_some]
  simp only [hpack, Option.map_some, hint]
  rw [List.drop_drop, List.drop_of_length_le (by simp; omega), List.append_nil, packedArgs]

/-- The main thread of q, not started yet, finds what Exec was given. -/
structure Delivered (m : Machine) (q : PcbRef) (args : List UInt8) : Prop where
  task : m.mainTask q = some .execWrapper
  alive : (m.kernel.procs.PT q).pstate = .ALIVE
  argl : (m.kernel.procs.PT q).argl = args.length
  args : (m.kernel.procs.PT q).args = some args

section
variable {m m' : Machine} {p q : PcbRef} {L : Kin → List PcbRef} {fl : List PcbRef}
  {args : List UInt8}

theorem exec_pid {r : PcbRef} (h : Table m.kernel.procs L (r::fl)) (call : Option Task) (argl : Nat)
    (args : Option (List UInt8)) : (m.exec p call argl args).2 = r.val := by
  simp only [Machine.exec, sysExec, h.acquire_cons, getPid]

theorem exec_delivered (h : Inv m.kernel L fl)
    (hret : (m.exec p (some .execWrapper) args.length (some args)).2 = q.val) :
    Delivered (m.exec p (some .execWrapper) args.length (some args)).1 q args := by
  cases fl with
  | nil =>
    simp only [Machine.exec, sysExec, h.table.acquire_nil, getPid, NOPROC] at hret
    omega
  | cons r fl =>
    have hrq : r = q := by
      rw [exec_pid h.table] at hret
      exact Fin.ext (by omega)
    subst hrq
    have hPT : ∀ b, b = (sysExec m.kernel p true args.length (some args)).1.procs.PT r →
        b.pstate = .ALIVE ∧ b.argl = args.length ∧ b.args = some args := by
      rintro b rfl
      simp only [sysExec, h.table.acquire_cons, if_true, startMainThread, State.setThread,
        State.record,
        copyArgs, inheritParent]
      by_cases hle : r.val≤1 <;> simp [hle, Procs.modPCB]
    obtain ⟨halive,hargl,hargs⟩ := hPT _ rfl
    exact ⟨by simp [Machine.exec, h.table.acquire_cons],halive,hargl,hargs⟩

theorem Delivered.step (hd : Delivered m q args)
    (h : KeepsArgs q m.kernel.procs.PT m'.kernel.procs.PT)
    (ht : m'.mainTask q = m.mainTask q) : Delivered m' q args :=
  ⟨ht.trans hd.task,h.alive hd.alive,(h.argl hd.alive).trans hd.argl,(h.args hd.alive).trans
    hd.args⟩

theorem exec_mainTask (h : Inv m.kernel L fl) (hq : (m.kernel.procs.PT q).pstate = .ALIVE)
    (call : Option Task) (argl : Nat) (args : Option (List UInt8)) :
    (m.exec p call argl args).1.mainTask q = m.mainTask q := by
  cases fl with
  | nil => simp [Machine.exec, h.table.acquire_nil]
  | cons r fl =>
    have hqr : q≠r := by
      rintro rfl
      have := (h.table.free q).mp (by simp)
      rw [hq] at this
      cases this
    simp [Machine.exec, h.table.acquire_cons, hqr]

theorem next_mainTask (h : Inv m.kernel L fl) (hq : (m.kernel.procs.PT q).pstate = .ALIVE)
    {a : Action} (hn : m.next a = some m') : m'.mainTask q = m.mainTask q := by
  cases a with
  | exec p call argl args =>
    simp only [Machine.next] at hn
    split at hn
    · cases hn
      exact exec_mainTask h hq call argl args
    · cases hn
  | execute p prog argv stack =>
    simp only [Machine.next] at hn
    split at hn
    · obtain ⟨r,hr,rfl⟩ := Option.map_eq_some_iff.mp hn
      obtain ⟨len,-,hr⟩ := Option.bind_eq_some_iff.mp hr
      obtain ⟨x,-,rfl⟩ := Option.map_eq_some_iff.mp hr
      exact exec_mainTask h hq _ _ _
    · cases hn
  | kernel a =>
    simp only [Machine.next] at hn
    split at hn
    · cases hn
    · obtain ⟨k,-,rfl⟩ := Option.map_eq_some_iff.mp hn
      rfl
  | write addr b =>
    cases hn
    rfl

theorem next_keepsArgs (h : Inv m.kernel L fl) {a : Action} (ha : a.proc≠some q)
    (hn : m.next a = some m') : KeepsArgs q m.kernel.procs.PT m'.kernel.procs.PT := by
  cases a with
  | exec p call argl args' =>
    simp only [Machine.next] at hn
    split at hn
    · cases hn
      exact sysExec_args h call.isSome argl args'
    · cases hn
  | execute p prog argv stack =>
    simp only [Machine.next] at hn
    split at hn
    · obtain ⟨r,hr,rfl⟩ := Option.map_eq_some_iff.mp hn
      obtain ⟨len,-,hr⟩ := Option.bind_eq_some_iff.mp hr
      obtain ⟨x,-,rfl⟩ := Option.map_eq_some_iff.mp hr
      exact sysExec_args h _ _ _
    · cases hn
  | kernel a =>
    simp only [Machine.next] at hn
    split at hn
    · cases hn
    · obtain ⟨k,hk,rfl⟩ := Option.map_eq_some_iff.mp hn
      simp only [system] at hk
      split at hk
      · exact step_args h ha hk
      · cases hk
  | write addr b =>
    cases hn
    exact .refl q _

theorem next_delivered (hd : Delivered m q args) (h : Inv m.kernel L fl) {a : Action}
    (ha : a.proc≠some q) (hn : m.next a = some m') : Delivered m' q args :=
  hd.step (next_keepsArgs h ha hn) (next_mainTask h hd.alive hn)

theorem next_kernel {a : Action} (hn : m.next a = some m') :
    m'.kernel = m.kernel ∨ ∃ l, system.next m.kernel l = some m'.kernel := by
  have hexec : ∀ p call argl args, m.kernel.thread p = some .user →
      ∃ l, system.next m.kernel l = some (m.exec p call argl args).1.kernel := by
    intro p call argl args hp
    refine ⟨.exec p call.isSome argl args,?_⟩
    simp only [system]
    rw [if_pos (show Enabled m.kernel (.exec p call.isSome argl args) from hp)]
    rfl
  cases a with
  | exec p call argl args =>
    simp only [Machine.next] at hn
    split at hn
    · cases hn
      exact Or.inr (hexec p call argl args ‹_›)
    · cases hn
  | execute p prog argv stack =>
    simp only [Machine.next] at hn
    split at hn
    · obtain ⟨r,hr,rfl⟩ := Option.map_eq_some_iff.mp hn
      obtain ⟨len,-,hr⟩ := Option.bind_eq_some_iff.mp hr
      obtain ⟨x,-,rfl⟩ := Option.map_eq_some_iff.mp hr
      exact Or.inr (hexec p _ _ _ ‹_›)
    · cases hn
  | kernel a =>
    simp only [Machine.next] at hn
    split at hn
    · cases hn
    · obtain ⟨k,hk,rfl⟩ := Option.map_eq_some_iff.mp hn
      exact Or.inr ⟨a,hk⟩
  | write addr b =>
    cases hn
    exact Or.inl rfl

theorem machine_kernel (hr : machine.Reachable m) : system.Reachable m.kernel := by
  refine machine.invariant (fun m => system.Reachable m.kernel) (fun m hm => .init hm) ?_ hr
  intro m a m' hm hn
  cases next_kernel hn with
  | inl he => exact he ▸ hm
  | inr hl =>
    obtain ⟨l,hl⟩ := hl
    exact .step hm hl

/-- Until a process acts itself its arguments stay. -/
theorem run_keepsArgs (hr : machine.Reachable m) (as : List Action) (has : ∀ a∈as, a.proc≠some q)
    (hrun : machine.run m as = some m') : KeepsArgs q m.kernel.procs.PT m'.kernel.procs.PT := by
  induction as generalizing m with
  | nil =>
    cases hrun
    exact .refl q _
  | cons a as ih =>
    obtain ⟨m1,h1,hrun⟩ := Option.bind_eq_some_iff.mp hrun
    obtain ⟨L,fl,h⟩ := reachable_inv (machine_kernel hr)
    exact (next_keepsArgs h (has a (by simp)) h1).trans
      (ih (.step hr h1) (fun b hb => has b (by simp [hb])) hrun)

theorem run_delivered (hr : machine.Reachable m) (hd : Delivered m q args) (as : List Action)
    (has : ∀ a∈as, a.proc≠some q) (hrun : machine.run m as = some m') : Delivered m' q args := by
  induction as generalizing m with
  | nil =>
    cases hrun
    exact hd
  | cons a as ih =>
    obtain ⟨m1,h1,hrun⟩ := Option.bind_eq_some_iff.mp hrun
    obtain ⟨L,fl,h⟩ := reachable_inv (machine_kernel hr)
    exact ih (.step hr h1) (next_delivered hd h (has a (by simp)) h1)
      (fun b hb => has b (by simp [hb])) hrun

end

def bootMachine : Machine where
  kernel := boot 0 0 none
  mainTask _ := none
  mem addr := if addr = 0 then 104 else if addr = 1 then 105 else 0

end TinyOS.Kernel
