import Mathlib.Algebra.Order.BigOperators.Group.Finset
import TinyOS.Bios.Vm

/-! Both barriers of bios.c keep the threads of the virtual machine in step. What a thread
has passed is read off from where it is. -/
namespace TinyOS.Bios.Vm
open Transition

/-! What holds where. -/

@[simp] def CorePc.systemPassed : CorePc → Nat
  | .unborn | .handlers | .mask | .timerCreate | .enterSystem | .waitSystem => 0
  | .ended => 2
  | _ => 1

@[simp] def CorePc.corePassed : CorePc → Nat
  | .unborn | .handlers | .mask | .timerCreate | .enterSystem | .waitSystem | .part _
  | .enterSync | .waitSync => 0
  | .stopPic | .interruptPic | .enterLast | .waitLast | .ended => 2
  | _ => 1

@[simp] def CorePc.atSystem : CorePc → Bool
  | .waitSystem | .waitLast => true
  | _ => false

@[simp] def CorePc.atCore : CorePc → Bool
  | .waitSync | .waitCore => true
  | _ => false

@[simp] def CorePc.masked : CorePc → Bool
  | .unborn | .handlers | .mask => false
  | _ => true

@[simp] def CorePc.hasTimer : CorePc → Bool
  | .unborn | .handlers | .mask | .timerCreate => false
  | p => p.corePassed≤1 && p≠.enterCore && p≠.waitCore

@[simp] def CorePc.stopped : CorePc → Bool
  | .interruptPic | .enterLast | .waitLast | .ended => true
  | _ => false

@[simp] def CorePc.booted : CorePc → List Part
  | .unborn | .handlers | .mask | .timerCreate | .enterSystem | .waitSystem
  | .part .processes => []
  | .part .devices => [.processes]
  | .part .files => [.processes,.devices]
  | .part .scheduler => [.processes,.devices,.files]
  | .part .init => [.processes,.devices,.files,.scheduler]
  | _ => [.processes,.devices,.files,.scheduler,.init]

@[simp] def CorePc.ofZero : CorePc → Bool
  | .part _ | .stopPic | .interruptPic => true
  | _ => false

def CorePc.handler (zero : Bool) (p : CorePc) : Interrupt → Option Handler
  | .ALARM => if p = .setIci ∨ p = .idle ∨ p = .clearAlarm then some .yieldHandler else none
  | .ICI =>
    if p = .idle ∨ p = .clearAlarm ∨ p = .clearIci then some .iciHandler else none
  | .SERIAL_RX_READY =>
    if zero && Part.devices∈p.booted && p.hasTimer && p≠.timerDelete then some .serialRxHandler
    else none
  | .SERIAL_TX_READY =>
    if zero && Part.devices∈p.booted && p.hasTimer && p≠.timerDelete then some .serialTxHandler
    else none

@[simp] def PicPc.systemPassed : PicPc → Nat
  | .start | .create _ | .setTerminals | .openTerminal _ | .block | .enterSystem
  | .waitSystem => 0
  | .test | .loop | .enterLast | .waitLast => 1
  | _ => 2

@[simp] def PicPc.atSystem : PicPc → Bool
  | .waitSystem | .waitLast => true
  | _ => false

@[simp] def PicPc.blocked : PicPc → Bool
  | .enterSystem | .waitSystem | .test | .loop | .enterLast | .waitLast | .drain
  | .unblock => true
  | _ => false

@[simp] def PicPc.created (n : Nat) : PicPc → Nat
  | .start => 0
  | .create c => c
  | _ => n

@[simp] def PicPc.joined (n : Nat) : PicPc → Nat
  | .join c => c
  | .destroy | .returned => n
  | _ => 0

@[simp] def PicPc.ncores (n : Nat) : PicPc → Nat
  | .start | .returned => 0
  | _ => n

@[simp] def PicPc.nterm (serialno : Nat) : PicPc → Nat
  | .start | .create _ | .setTerminals | .join _ | .destroy | .returned => 0
  | _ => serialno

@[simp] def PicPc.terms (serialno : Nat) : PicPc → Nat
  | .start | .create _ | .setTerminals | .join _ | .destroy | .returned => 0
  | .openTerminal i => i
  | .closeTerminal i => serialno-i
  | _ => serialno

@[simp] def PicPc.started : PicPc → Bool
  | .start => false
  | _ => true

@[simp] def PicPc.past : PicPc → Bool
  | .enterLast | .waitLast => true
  | p => p.systemPassed = 2

@[simp] def PicPc.drained (p : PicPc) : Bool := p.systemPassed = 2 && p≠.drain

section
variable {n serialno : Nat}

def State.systemPassed (s : State n) : Option (Fin n) → Nat
  | none => s.pic.systemPassed
  | some c => (s.cpu c).pc.systemPassed

def State.atSystem (s : State n) : Option (Fin n) → Bool
  | none => s.pic.atSystem
  | some c => (s.cpu c).pc.atSystem

structure CpuOk (zero : Bool) (k : Cpu) : Prop where
  masked : k.masked = k.pc.masked
  timer : k.timer = k.pc.hasTimer
  intvec : k.intvec = k.pc.handler zero
  ofZero : k.pc.ofZero = true → zero = true

structure CoreOk (s : State n) (c : Fin n) : Prop where
  passed : s.core.passed c = (s.cpu c).pc.corePassed
  ticket : (s.core.ticket c).isSome = (s.cpu c).pc.atCore
  cpu : CpuOk (c.val = 0) (s.cpu c)

structure PicOk (serialno : Nat) (s : State n) : Prop where
  ncores : s.ncores = s.pic.ncores n
  nterm : s.nterm = s.pic.nterm serialno
  terms : s.terms = s.pic.terms serialno
  blocked : s.blocked = s.pic.blocked
  drained : s.pic.drained = true → s.queued = 0
  past : s.pic.past = true → s.picActive = false
  bound : s.pic.created n≤n ∧ s.pic.joined n≤n ∧ s.pic.terms serialno≤ serialno

structure ZeroOk (serialno : Nat) (s : State n) : Prop where
  booted : ∀ c : Fin n, c.val = 0 → s.booted = (s.cpu c).pc.booted
  devnum : Part.devices∈s.booted → s.devnum = serialno
  active : ∀ c : Fin n, c.val = 0 → s.picActive = (s.pic.started && !(s.cpu c).pc.stopped)

structure Inv (serialno : Nat) (s : State n) : Prop where
  fault : s.fault = none
  system : s.system.Sound
  core : s.core.Sound
  passed : ∀ p, s.system.passed p = s.systemPassed p
  ticket : ∀ p, (s.system.ticket p).isSome = s.atSystem p
  coreOk : ∀ c, CoreOk s c
  picOk : PicOk serialno s
  zeroOk : ZeroOk serialno s
  created : ∀ c : Fin n, (s.cpu c).pc = .unborn ↔ s.pic.created n≤ c.val
  joined : ∀ c : Fin n, c.val < s.pic.joined n → (s.cpu c).pc = .ended

variable {s s' : State n}

/-! Nobody gets past a barrier before all have come to it. -/

theorem Inv.system_wait (h : Inv serialno s) {p q : Option (Fin n)}
    (hlt : s.systemPassed q < s.systemPassed p) :
    s.atSystem q = true ∧ s.systemPassed q+1 = s.systemPassed p := by
  rw [← h.passed, ← h.passed] at hlt ⊢
  obtain ⟨hr,he⟩ := h.system.released hlt
  refine ⟨?_,he⟩
  obtain ⟨r,ht,_⟩ := Barrier.released_iff.mp hr
  rw [← h.ticket, ht]
  rfl

theorem Inv.core_wait (h : Inv serialno s) {c d : Fin n}
    (hlt : (s.cpu d).pc.corePassed < (s.cpu c).pc.corePassed) : (s.cpu d).pc.atCore = true := by
  rw [← (h.coreOk d).passed, ← (h.coreOk c).passed] at hlt
  obtain ⟨r,ht,_⟩ := Barrier.released_iff.mp (h.core.released hlt).1
  rw [← (h.coreOk d).ticket, ht]
  rfl

theorem Inv.between (h : Inv serialno s) {p : Option (Fin n)} (hp : s.systemPassed p = 1)
    (hs : s.atSystem p = false) (q : Option (Fin n)) :
    s.systemPassed q = 1 ∨ s.systemPassed q = 0 ∧ s.atSystem q = true := by
  rcases Nat.lt_trichotomy (s.systemPassed q) 1 with hq | hq | hq
  · exact .inr ⟨by omega,(h.system_wait (p := p) (by omega)).1⟩
  · exact .inl hq
  · have hw := (h.system_wait (p := q) (q := p) (by omega)).1
    rw [hs] at hw
    cases hw

theorem CorePc.live_of_passed {p : CorePc} (h : p.systemPassed = 1 ∨
    p.systemPassed = 0 ∧ p.atSystem = true) : p.live = true := by
  cases p <;> simp [live] at h ⊢

theorem PicPc.blocked_of_passed {p : PicPc} (h : p.systemPassed = 1 ∨
    p.systemPassed = 0 ∧ p.atSystem = true) : p.blocked = true ∧ p.drained = false := by
  cases p <;> simp at h ⊢

theorem Inv.live (h : Inv serialno s) {p : Option (Fin n)} (hp : s.systemPassed p = 1)
    (hs : s.atSystem p = false) (d : Fin n) : (s.cpu d).pc.live = true :=
  CorePc.live_of_passed (h.between hp hs (some d))

theorem Inv.blocked (h : Inv serialno s) {p : Option (Fin n)} (hp : s.systemPassed p = 1)
    (hs : s.atSystem p = false) : s.blocked = true ∧ s.pic.drained = false := by
  rw [h.picOk.blocked]
  exact PicPc.blocked_of_passed (h.between hp hs none)

/-! A statement of a core changes nothing of the others. -/

structure CoreStep (s s' : State n) (c : Fin n) (k : Cpu) : Prop where
  cpu : s'.cpu = Function.update s.cpu c k
  pic : s'.pic = s.pic
  ncores : s'.ncores = s.ncores
  nterm : s'.nterm = s.nterm
  terms : s'.terms = s.terms
  blocked : s'.blocked = s.blocked
  passed : ∀ q, q≠some c → s'.system.passed q = s.system.passed q
  ticket : ∀ q, q≠some c → s'.system.ticket q = s.system.ticket q
  corePassed : ∀ d, d≠c → s'.core.passed d = s.core.passed d
  coreTicket : ∀ d, d≠c → s'.core.ticket d = s.core.ticket d

theorem CoreOk.frame {c d : Fin n} {k : Cpu} (h : CoreOk s d) (hst : CoreStep s s' c k)
    (hd : d≠c) : CoreOk s' d := by
  have hcpu : s'.cpu d = s.cpu d := by rw [hst.cpu, Function.update_of_ne hd]
  constructor
  · rw [hst.corePassed d hd, hcpu]
    exact h.passed
  · rw [hst.coreTicket d hd, hcpu]
    exact h.ticket
  · rw [hcpu]
    exact h.cpu

theorem ZeroOk.frame {c : Fin n} {k : Cpu} (h : ZeroOk serialno s) (hst : CoreStep s s' c k)
    (hb : s'.booted = s.booted) (hd : s'.devnum = s.devnum) (ha : s'.picActive = s.picActive)
    (hz : c.val = 0 → k.pc.booted = (s.cpu c).pc.booted ∧
      k.pc.stopped = (s.cpu c).pc.stopped) : ZeroOk serialno s' := by
  have hcpu : ∀ d : Fin n, d.val = 0 → (s'.cpu d).pc.booted = (s.cpu d).pc.booted ∧
      (s'.cpu d).pc.stopped = (s.cpu d).pc.stopped := by
    intro d hd0
    rw [hst.cpu]
    by_cases hdc : d = c
    · rw [hdc, Function.update_self]
      exact hz (hdc ▸ hd0)
    · rw [Function.update_of_ne hdc]
      exact ⟨rfl,rfl⟩
  constructor
  · intro d hd0
    rw [hb, (hcpu d hd0).1]
    exact h.booted d hd0
  · rw [hb, hd]
    exact h.devnum
  · intro d hd0
    rw [ha, hst.pic, (hcpu d hd0).2]
    exact h.active d hd0

theorem Inv.coreStep (h : Inv serialno s) {c : Fin n} {k : Cpu} (hst : CoreStep s s' c k)
    (hf : s'.fault = none) (hu : (s.cpu c).pc≠.unborn) (he : (s.cpu c).pc≠.ended)
    (hk : k.pc≠.unborn)
    (hsystem : s'.system.Sound) (hcore : s'.core.Sound)
    (hpassed : s'.system.passed (some c) = k.pc.systemPassed)
    (hticket : (s'.system.ticket (some c)).isSome = k.pc.atSystem) (hc : CoreOk s' c)
    (hq : s.pic.drained = true → s.queued = 0 → s'.queued = 0)
    (hact : s.picActive = false → s'.picActive = false) (hz : ZeroOk serialno s') :
    Inv serialno s' := by
  have hsome : ∀ d, s'.systemPassed (some d) = (Function.update s.cpu c k d).pc.systemPassed := by
    intro d
    rw [← hst.cpu]
    rfl
  have hat : ∀ d, s'.atSystem (some d) = (Function.update s.cpu c k d).pc.atSystem := by
    intro d
    rw [← hst.cpu]
    rfl
  refine ⟨hf,hsystem,hcore,?_,?_,?_,?_,hz,?_,?_⟩
  · intro q
    cases q with
    | none => rw [hst.passed none (by simp), h.passed, State.systemPassed, State.systemPassed, hst.pic]
    | some d =>
      rw [hsome]
      by_cases hd : d = c
      · rw [hd, Function.update_self, hpassed]
      · rw [Function.update_of_ne hd, hst.passed _ (by simp [hd]), h.passed]
        rfl
  · intro q
    cases q with
    | none => rw [hst.ticket none (by simp), h.ticket, State.atSystem, State.atSystem, hst.pic]
    | some d =>
      rw [hat]
      by_cases hd : d = c
      · rw [hd, Function.update_self, hticket]
      · rw [Function.update_of_ne hd, hst.ticket _ (by simp [hd]), h.ticket]
        rfl
  · intro d
    by_cases hd : d = c
    · exact hd ▸ hc
    · exact (h.coreOk d).frame hst hd
  · have hpic := h.picOk
    refine ⟨?_,?_,?_,?_,?_,?_,?_⟩
    · rw [hst.ncores, hst.pic, hpic.ncores]
    · rw [hst.nterm, hst.pic, hpic.nterm]
    · rw [hst.terms, hst.pic, hpic.terms]
    · rw [hst.blocked, hst.pic, hpic.blocked]
    · rw [hst.pic]
      exact fun hd => hq hd (hpic.drained hd)
    · rw [hst.pic]
      exact fun hd => hact (hpic.past hd)
    · rw [hst.pic]
      exact hpic.bound
  · intro d
    rw [hst.cpu, hst.pic, ← h.created]
    by_cases hd : d = c
    · rw [hd, Function.update_self]
      exact ⟨fun hk' => absurd hk' hk,fun hu' => absurd hu' hu⟩
    · rw [Function.update_of_ne hd]
  · intro d hd
    rw [hst.pic] at hd
    have hj := h.joined d hd
    by_cases hdc : d = c
    · exact absurd (hdc ▸ hj) he
    · rw [hst.cpu, Function.update_of_ne hdc, hj]

theorem Inv.moves (h : Inv serialno s) {c : Fin n} {k : Cpu} (hst : CoreStep s s' c k)
    (hsystem : s'.system = s.system) (hcore : s'.core = s.core) (hf : s'.fault = none)
    (hu : (s.cpu c).pc≠.unborn) (he : (s.cpu c).pc≠.ended) (hk : k.pc≠.unborn)
    (hs : k.pc.systemPassed = (s.cpu c).pc.systemPassed ∧
      k.pc.atSystem = (s.cpu c).pc.atSystem)
    (hc : k.pc.corePassed = (s.cpu c).pc.corePassed ∧ k.pc.atCore = (s.cpu c).pc.atCore)
    (hok : CpuOk (c.val = 0) k) (hq : s.pic.drained = true → s.queued = 0 → s'.queued = 0)
    (hact : s.picActive = false → s'.picActive = false) (hz : ZeroOk serialno s') :
    Inv serialno s' := by
  have hcpu : s'.cpu c = k := by rw [hst.cpu, Function.update_self]
  refine h.coreStep hst hf hu he hk (hsystem ▸ h.system) (hcore ▸ h.core) ?_ ?_ ?_ hq hact hz
  · rw [hsystem, h.passed, hs.1]
    rfl
  · rw [hsystem, h.ticket, hs.2]
    rfl
  · refine ⟨?_,?_,hcpu ▸ hok⟩
    · rw [hcore, hcpu, hc.1]
      exact (h.coreOk c).passed
    · rw [hcore, hcpu, hc.2]
      exact (h.coreOk c).ticket

theorem CoreStep.setCpu (s : State n) (c : Fin n) (k : Cpu) : CoreStep s (s.setCpu c k) c k :=
  ⟨rfl,rfl,rfl,rfl,rfl,rfl,fun _ _ => rfl,fun _ _ => rfl,fun _ _ => rfl,fun _ _ => rfl⟩

theorem Inv.setCpu (h : Inv serialno s) {c : Fin n} {k : Cpu}
    (hu : (s.cpu c).pc≠.unborn) (he : (s.cpu c).pc≠.ended) (hk : k.pc≠.unborn)
    (hs : k.pc.systemPassed = (s.cpu c).pc.systemPassed ∧
      k.pc.atSystem = (s.cpu c).pc.atSystem)
    (hc : k.pc.corePassed = (s.cpu c).pc.corePassed ∧ k.pc.atCore = (s.cpu c).pc.atCore)
    (hok : CpuOk (c.val = 0) k)
    (hz : k.pc.booted = (s.cpu c).pc.booted ∧ k.pc.stopped = (s.cpu c).pc.stopped) :
    Inv serialno (s.setCpu c k) :=
  h.moves (CoreStep.setCpu s c k) rfl rfl h.fault hu he hk hs hc hok (fun _ hq => hq)
    (fun ha => ha) (h.zeroOk.frame (CoreStep.setCpu s c k) rfl rfl rfl fun _ => hz)

/-! The barriers. -/

theorem Inv.enterSystem (h : Inv serialno s) {c : Fin n} {p : CorePc}
    (hu : (s.cpu c).pc≠.unborn) (he : (s.cpu c).pc≠.ended) (hp : p≠.unborn)
    (hat : (s.cpu c).pc.atSystem = false) (hat' : p.atSystem = true)
    (hs : p.systemPassed = (s.cpu c).pc.systemPassed)
    (hc : p.corePassed = (s.cpu c).pc.corePassed ∧ p.atCore = (s.cpu c).pc.atCore)
    (hok : CpuOk (c.val = 0) ((s.cpu c).goto p))
    (hz : p.booted = (s.cpu c).pc.booted ∧ p.stopped = (s.cpu c).pc.stopped) :
    Inv serialno ({ s with system := s.system.enter (n+1) (some c) }.setCpu c
      ((s.cpu c).goto p)) := by
  have ht := h.ticket (some c)
  rw [State.atSystem, hat, Option.isSome_eq_false_iff, Option.isNone_iff_eq_none] at ht
  have hsound := h.system.enter ht
  rw [Fintype.card_option, Fintype.card_fin] at hsound
  have hst : CoreStep s ({ s with system := s.system.enter (n+1) (some c) }.setCpu c
      ((s.cpu c).goto p)) c ((s.cpu c).goto p) :=
    ⟨rfl,rfl,rfl,rfl,rfl,rfl,fun _ _ => rfl,fun _ hq => Barrier.enter_ticket_of_ne hq,
      fun _ _ => rfl,fun _ _ => rfl⟩
  refine h.coreStep hst h.fault hu he hp hsound h.core ?_ ?_ ?_ (fun _ hq => hq)
    (fun ha => ha) (h.zeroOk.frame hst rfl rfl rfl fun _ => hz)
  · exact (h.passed (some c)).trans hs.symm
  · exact Barrier.enter_ticket.trans hat'.symm
  · refine ⟨?_,?_,?_⟩
    · simp only [State.setCpu, Function.update_self, Cpu.goto, hc.1]
      exact (h.coreOk c).passed
    · simp only [State.setCpu, Function.update_self, Cpu.goto, hc.2]
      exact (h.coreOk c).ticket
    · simp only [State.setCpu, Function.update_self]
      exact hok

theorem Inv.leaveSystem (h : Inv serialno s) {c : Fin n} {p : CorePc}
    (hr : s.system.Released (some c)) (hu : (s.cpu c).pc≠.unborn) (he : (s.cpu c).pc≠.ended)
    (hp : p≠.unborn) (hat' : p.atSystem = false)
    (hs : p.systemPassed = (s.cpu c).pc.systemPassed+1)
    (hc : p.corePassed = (s.cpu c).pc.corePassed ∧ p.atCore = (s.cpu c).pc.atCore)
    (hok : CpuOk (c.val = 0) ((s.cpu c).goto p))
    (hz : c.val = 0 → p.booted = (s.cpu c).pc.booted ∧ p.stopped = (s.cpu c).pc.stopped) :
    Inv serialno ({ s with system := s.system.leave (some c) }.setCpu c
      ((s.cpu c).goto p)) := by
  have hst : CoreStep s ({ s with system := s.system.leave (some c) }.setCpu c
      ((s.cpu c).goto p)) c ((s.cpu c).goto p) :=
    ⟨rfl,rfl,rfl,rfl,rfl,rfl,fun _ hq => Barrier.leave_passed_of_ne hq,
      fun _ hq => Barrier.leave_ticket_of_ne hq,fun _ _ => rfl,fun _ _ => rfl⟩
  refine h.coreStep hst h.fault hu he hp (h.system.leave hr) h.core ?_ ?_ ?_ (fun _ hq => hq)
    (fun ha => ha) (h.zeroOk.frame hst rfl rfl rfl hz)
  · refine Barrier.leave_passed.trans ?_
    rw [h.passed]
    exact hs.symm
  · exact (congrArg Option.isSome Barrier.leave_ticket).trans hat'.symm
  · refine ⟨?_,?_,?_⟩
    · simp only [State.setCpu, Function.update_self, Cpu.goto, hc.1]
      exact (h.coreOk c).passed
    · simp only [State.setCpu, Function.update_self, Cpu.goto, hc.2]
      exact (h.coreOk c).ticket
    · simp only [State.setCpu, Function.update_self]
      exact hok

theorem Inv.enterCore (h : Inv serialno s) {c : Fin n} {p : CorePc}
    (hu : (s.cpu c).pc≠.unborn) (he : (s.cpu c).pc≠.ended) (hp : p≠.unborn)
    (hat : (s.cpu c).pc.atCore = false) (hat' : p.atCore = true)
    (hc : p.corePassed = (s.cpu c).pc.corePassed)
    (hs : p.systemPassed = (s.cpu c).pc.systemPassed ∧ p.atSystem = (s.cpu c).pc.atSystem)
    (hok : CpuOk (c.val = 0) ((s.cpu c).goto p))
    (hz : p.booted = (s.cpu c).pc.booted ∧ p.stopped = (s.cpu c).pc.stopped) :
    Inv serialno ({ s with core := s.core.enter n c }.setCpu c ((s.cpu c).goto p)) := by
  have ht := (h.coreOk c).ticket
  rw [hat, Option.isSome_eq_false_iff, Option.isNone_iff_eq_none] at ht
  have hsound := h.core.enter ht
  rw [Fintype.card_fin] at hsound
  have hst : CoreStep s ({ s with core := s.core.enter n c }.setCpu c ((s.cpu c).goto p)) c
      ((s.cpu c).goto p) :=
    ⟨rfl,rfl,rfl,rfl,rfl,rfl,fun _ _ => rfl,fun _ _ => rfl,fun _ _ => rfl,
      fun _ hd => Barrier.enter_ticket_of_ne hd⟩
  refine h.coreStep hst h.fault hu he hp h.system hsound ?_ ?_ ?_ (fun _ hq => hq)
    (fun ha => ha) (h.zeroOk.frame hst rfl rfl rfl fun _ => hz)
  · exact (h.passed (some c)).trans hs.1.symm
  · exact (h.ticket (some c)).trans hs.2.symm
  · refine ⟨?_,?_,?_⟩
    · simp only [State.setCpu, Function.update_self, Cpu.goto, hc]
      exact (h.coreOk c).passed
    · simp only [State.setCpu, Function.update_self, Cpu.goto, hat']
      exact Barrier.enter_ticket
    · simp only [State.setCpu, Function.update_self]
      exact hok

theorem Inv.leaveCore (h : Inv serialno s) {c : Fin n} {p : CorePc}
    (hr : s.core.Released c) (hu : (s.cpu c).pc≠.unborn) (he : (s.cpu c).pc≠.ended)
    (hp : p≠.unborn) (hat' : p.atCore = false)
    (hc : p.corePassed = (s.cpu c).pc.corePassed+1)
    (hs : p.systemPassed = (s.cpu c).pc.systemPassed ∧ p.atSystem = (s.cpu c).pc.atSystem)
    (hok : CpuOk (c.val = 0) ((s.cpu c).goto p))
    (hz : c.val = 0 → p.booted = (s.cpu c).pc.booted ∧ p.stopped = (s.cpu c).pc.stopped) :
    Inv serialno ({ s with core := s.core.leave c }.setCpu c ((s.cpu c).goto p)) := by
  have hst : CoreStep s ({ s with core := s.core.leave c }.setCpu c ((s.cpu c).goto p)) c
      ((s.cpu c).goto p) :=
    ⟨rfl,rfl,rfl,rfl,rfl,rfl,fun _ _ => rfl,fun _ _ => rfl,
      fun _ hd => Barrier.leave_passed_of_ne hd,fun _ hd => Barrier.leave_ticket_of_ne hd⟩
  refine h.coreStep hst h.fault hu he hp h.system (h.core.leave hr) ?_ ?_ ?_ (fun _ hq => hq)
    (fun ha => ha) (h.zeroOk.frame hst rfl rfl rfl hz)
  · exact (h.passed (some c)).trans hs.1.symm
  · exact (h.ticket (some c)).trans hs.2.symm
  · refine ⟨?_,?_,?_⟩
    · simp only [State.setCpu, Function.update_self, Cpu.goto, hc]
      rw [← (h.coreOk c).passed]
      exact Barrier.leave_passed
    · simp only [State.setCpu, Function.update_self, Cpu.goto, hat']
      exact congrArg Option.isSome Barrier.leave_ticket
    · simp only [State.setCpu, Function.update_self]
      exact hok

/-! Each statement of a core. -/

theorem CpuOk.goto {zero : Bool} {k : Cpu} {p : CorePc} (h : CpuOk zero k)
    (hm : p.masked = k.pc.masked) (ht : p.hasTimer = k.pc.hasTimer)
    (hv : p.handler zero = k.pc.handler zero) (hz : p.ofZero = true → zero = true) :
    CpuOk zero (k.goto p) :=
  ⟨h.masked.trans hm.symm,h.timer.trans ht.symm,h.intvec.trans hv.symm,hz⟩

theorem CpuOk.interruptHandler {zero : Bool} {k : Cpu} {p : CorePc} {i : Interrupt}
    {x : Option Handler} (h : CpuOk zero k) (hm : p.masked = k.pc.masked)
    (ht : p.hasTimer = k.pc.hasTimer) (hi : p.handler zero i = x)
    (hv : ∀ j, j≠i → p.handler zero j = k.pc.handler zero j)
    (hz : p.ofZero = true → zero = true) : CpuOk zero ((k.interruptHandler i x).goto p) := by
  refine ⟨h.masked.trans hm.symm,h.timer.trans ht.symm,funext fun j => ?_,hz⟩
  simp only [Cpu.goto, Cpu.interruptHandler]
  by_cases hj : j = i
  · rw [hj, Function.update_self, hi]
  · rw [Function.update_of_ne hj, hv j hj, h.intvec]

theorem Inv.zeroCore (h : Inv serialno s) {c : Fin n} (hz : (s.cpu c).pc.ofZero = true) :
    c.val = 0 ∧ s.systemPassed (some c) = 1 ∧ s.atSystem (some c) = false := by
  refine ⟨by simpa using (h.coreOk c).cpu.ofZero hz,?_⟩
  simp only [State.systemPassed, State.atSystem]
  cases hpc : (s.cpu c).pc <;> simp [hpc] at hz ⊢

theorem PicPc.nterm_of_passed {p : PicPc} (h : p.systemPassed = 1 ∨
    p.systemPassed = 0 ∧ p.atSystem = true) : p.nterm serialno = serialno := by
  cases p <;> simp at h ⊢

theorem ZeroOk.ofCore {c : Fin n} (hc : c.val = 0) (hb : s.booted = (s.cpu c).pc.booted)
    (hd : Part.devices∈s.booted → s.devnum = serialno)
    (ha : s.picActive = (s.pic.started && !(s.cpu c).pc.stopped)) : ZeroOk serialno s := by
  have he : ∀ d : Fin n, d.val = 0 → d = c := fun d hd0 => Fin.ext (hd0.trans hc.symm)
  refine ⟨fun d hd0 => ?_,hd,fun d hd0 => ?_⟩
  · rw [he d hd0]
    exact hb
  · rw [he d hd0]
    exact ha

theorem Inv.boot (h : Inv serialno s) {c : Fin n} {p : Part} (hpc : (s.cpu c).pc = .part p) :
    Inv serialno ((s.boot p).setCpu c (((s.cpu c).boot p).goto p.next)) := by
  obtain ⟨hc,hp,hs⟩ := h.zeroCore (c := c) (by simp [hpc])
  have hok := (h.coreOk c).cpu
  have hterm : s.pic.nterm serialno = serialno := PicPc.nterm_of_passed (h.between hp hs none)
  have hbooted : s.booted = (CorePc.part p).booted := hpc ▸ h.zeroOk.booted c hc
  have hst : CoreStep s ((s.boot p).setCpu c (((s.cpu c).boot p).goto p.next)) c
      (((s.cpu c).boot p).goto p.next) := by
    cases p <;> exact ⟨rfl,rfl,rfl,rfl,rfl,rfl,fun _ _ => rfl,fun _ _ => rfl,fun _ _ => rfl,
      fun _ _ => rfl⟩
  have hact : (s.boot p).picActive = s.picActive := by cases p <;> rfl
  have hz : ZeroOk serialno ((s.boot p).setCpu c (((s.cpu c).boot p).goto p.next)) := by
    refine ZeroOk.ofCore hc ?_ ?_ ?_
    · cases p <;> simp [State.setCpu, State.boot, Cpu.goto, Part.next, hbooted]
    · cases p with
      | devices => exact fun _ => h.picOk.nterm.trans hterm
      | processes => simp [State.setCpu, State.boot, hbooted]
      | files => exact fun _ => h.zeroOk.devnum (by simp [hbooted])
      | scheduler => exact fun _ => h.zeroOk.devnum (by simp [hbooted])
      | init => exact fun _ => h.zeroOk.devnum (by simp [hbooted])
    · have ha := h.zeroOk.active c hc
      rw [hpc] at ha
      cases p <;> simpa [State.setCpu, State.boot, Cpu.goto, Part.next] using ha
  have hcpu : CpuOk (c.val = 0) (((s.cpu c).boot p).goto p.next) := by
    have hv := hok.intvec
    have hm := hok.masked
    have ht := hok.timer
    rw [hpc] at hv hm ht
    refine ⟨?_,?_,funext fun i => ?_,fun _ => by simp [hc]⟩
    · cases p <;> simpa [Cpu.boot, Cpu.interruptHandler, Cpu.goto, Part.next] using hm
    · cases p <;> simpa [Cpu.boot, Cpu.interruptHandler, Cpu.goto, Part.next] using ht
    · cases p <;> cases i <;>
        simp [Cpu.boot, Cpu.interruptHandler, Cpu.goto, Part.next, hv, hc, CorePc.handler]
  refine h.moves hst ?_ ?_ ?_ ?_ ?_ ?_ ?_ ?_ hcpu ?_ (hact ▸ fun ha => ha) hz
  all_goals cases p <;>
    simp [State.setCpu, State.boot, Cpu.boot, Cpu.goto, Cpu.interruptHandler, Part.next, hpc,
      h.fault]

theorem Inv.runCore (h : Inv serialno s) {c : Fin n} {p : CorePc} (hpc : (s.cpu c).pc = p)
    (hs : s.runCore c (s.cpu c) p = some s') : Inv serialno s' := by
  have hok := (h.coreOk c).cpu
  cases p with
  | unborn => cases hs
  | ended => cases hs
  | handlers =>
    cases hs
    refine h.setCpu ?_ ?_ ?_ ?_ ?_ ⟨?_,?_,funext fun i => ?_,?_⟩ ?_
    all_goals simp [hpc, hok.masked, hok.timer]
    cases i <;> simp [CorePc.handler]
  | mask =>
    cases hs
    refine h.setCpu ?_ ?_ ?_ ?_ ?_ ⟨?_,?_,funext fun i => ?_,?_⟩ ?_
    all_goals simp [hpc, hok.timer, hok.intvec]
    cases i <;> simp [CorePc.handler]
  | timerCreate =>
    cases hs
    refine h.setCpu ?_ ?_ ?_ ?_ ?_ ⟨?_,?_,funext fun i => ?_,?_⟩ ?_
    all_goals simp [hpc, hok.masked, hok.intvec]
    cases i <;> simp [CorePc.handler]
  | enterSystem =>
    cases hs
    refine h.enterSystem ?_ ?_ ?_ ?_ ?_ ?_ ?_ (hok.goto ?_ ?_ (funext fun i => ?_) ?_) ?_
    all_goals simp [hpc]
    cases i <;> simp [CorePc.handler]
  | waitSystem =>
    simp only [State.runCore, Option.ite_none_right_eq_some, Option.some.injEq] at hs
    obtain ⟨hr,rfl⟩ := hs
    split
    · rename_i hc
      refine h.leaveSystem hr ?_ ?_ ?_ ?_ ?_ ?_ (hok.goto ?_ ?_ (funext fun i => ?_) ?_) ?_
      all_goals simp [hpc, hc]
      cases i <;> simp [CorePc.handler]
    · rename_i hc
      refine h.leaveSystem hr ?_ ?_ ?_ ?_ ?_ ?_ (hok.goto ?_ ?_ (funext fun i => ?_) ?_) ?_
      all_goals simp [hpc, hc]
      cases i <;> simp [CorePc.handler]
  | part p =>
    cases hs
    exact h.boot hpc
  | enterSync =>
    cases hs
    refine h.enterCore ?_ ?_ ?_ ?_ ?_ ?_ ?_ (hok.goto ?_ ?_ (funext fun i => ?_) ?_) ?_
    all_goals simp [hpc]
    cases i <;> simp [CorePc.handler]
  | waitSync =>
    simp only [State.runCore, Option.ite_none_right_eq_some, Option.some.injEq] at hs
    obtain ⟨hr,rfl⟩ := hs
    refine h.leaveCore hr ?_ ?_ ?_ ?_ ?_ ?_ (hok.goto ?_ ?_ (funext fun i => ?_) ?_) ?_
    all_goals simp [hpc]
    cases i <;> simp [CorePc.handler]
  | setAlarm =>
    cases hs
    refine h.setCpu ?_ ?_ ?_ ?_ ?_ (hok.interruptHandler ?_ ?_ ?_ (fun j hj => ?_) ?_) ?_
    all_goals simp [hpc, Cpu.goto, CorePc.handler]
    cases j <;> simp at hj ⊢
  | setIci =>
    cases hs
    refine h.setCpu ?_ ?_ ?_ ?_ ?_ (hok.interruptHandler ?_ ?_ ?_ (fun j hj => ?_) ?_) ?_
    all_goals simp [hpc, Cpu.goto, CorePc.handler]
    cases j <;> simp at hj ⊢
  | idle =>
    cases hs
    refine h.setCpu ?_ ?_ ?_ ?_ ?_ (hok.goto ?_ ?_ (funext fun i => ?_) ?_) ?_
    all_goals simp [hpc, Cpu.goto]
    cases i <;> simp [CorePc.handler]
  | clearAlarm =>
    cases hs
    refine h.setCpu ?_ ?_ ?_ ?_ ?_ (hok.interruptHandler ?_ ?_ ?_ (fun j hj => ?_) ?_) ?_
    all_goals simp [hpc, Cpu.goto, CorePc.handler]
    cases j <;> simp at hj ⊢
  | clearIci =>
    cases hs
    refine h.setCpu ?_ ?_ ?_ ?_ ?_ (hok.interruptHandler ?_ ?_ ?_ (fun j hj => ?_) ?_) ?_
    all_goals simp [hpc, Cpu.goto, CorePc.handler]
    cases j <;> simp at hj ⊢
  | reset =>
    cases hs
    refine h.setCpu ?_ ?_ ?_ ?_ ?_ ⟨?_,?_,funext fun i => ?_,?_⟩ ?_
    all_goals simp [hpc, hok.masked, hok.timer]
    cases i <;> simp [CorePc.handler]
  | timerDelete =>
    cases hs
    refine h.setCpu ?_ ?_ ?_ ?_ ?_ ⟨?_,?_,funext fun i => ?_,?_⟩ ?_
    all_goals simp [hpc, hok.masked, hok.intvec]
    cases i <;> simp [CorePc.handler]
  | enterCore =>
    cases hs
    refine h.enterCore ?_ ?_ ?_ ?_ ?_ ?_ ?_ (hok.goto ?_ ?_ (funext fun i => ?_) ?_) ?_
    all_goals simp [hpc]
    cases i <;> simp [CorePc.handler]
  | waitCore =>
    simp only [State.runCore, Option.ite_none_right_eq_some, Option.some.injEq] at hs
    obtain ⟨hr,rfl⟩ := hs
    split
    · rename_i hc
      refine h.leaveCore hr ?_ ?_ ?_ ?_ ?_ ?_ (hok.goto ?_ ?_ (funext fun i => ?_) ?_) ?_
      all_goals simp [hpc, hc]
      cases i <;> simp [CorePc.handler]
    · rename_i hc
      refine h.leaveCore hr ?_ ?_ ?_ ?_ ?_ ?_ (hok.goto ?_ ?_ (funext fun i => ?_) ?_) ?_
      all_goals simp [hpc, hc]
      cases i <;> simp [CorePc.handler]
  | stopPic =>
    cases hs
    have hst : CoreStep s ({ s with picActive := false }.setCpu c ((s.cpu c).goto .interruptPic))
        c ((s.cpu c).goto .interruptPic) :=
      ⟨rfl,rfl,rfl,rfl,rfl,rfl,fun _ _ => rfl,fun _ _ => rfl,fun _ _ => rfl,fun _ _ => rfl⟩
    obtain ⟨hc,hp,hs⟩ := h.zeroCore (c := c) (by simp [hpc])
    have hz := h.zeroOk
    refine h.moves hst rfl rfl h.fault ?_ ?_ ?_ ?_ ?_ (hok.goto ?_ ?_ (funext fun i => ?_) ?_)
      (fun _ hq => hq) (fun _ => rfl) (ZeroOk.ofCore hc ?_ hz.devnum ?_)
    all_goals simp [hpc, State.setCpu, Cpu.goto]
    · cases i <;> simp [CorePc.handler]
    · exact hc
    · simpa [hpc] using hz.booted c hc
  | interruptPic =>
    cases hs
    obtain ⟨hc,hp,hs⟩ := h.zeroCore (c := c) (by simp [hpc])
    obtain ⟨hb,hd⟩ := h.blocked hp hs
    rw [State.interruptPicThread, if_pos hb]
    have hst : CoreStep s ({ s with queued := s.queued+1 }.setCpu c ((s.cpu c).goto .enterLast))
        c ((s.cpu c).goto .enterLast) :=
      ⟨rfl,rfl,rfl,rfl,rfl,rfl,fun _ _ => rfl,fun _ _ => rfl,fun _ _ => rfl,fun _ _ => rfl⟩
    refine h.moves hst rfl rfl h.fault ?_ ?_ ?_ ?_ ?_ (hok.goto ?_ ?_ (funext fun i => ?_) ?_)
      (fun hdr => ?_) (fun ha => ha) (h.zeroOk.frame hst rfl rfl rfl ?_)
    all_goals simp [hpc, Cpu.goto]
    · cases i <;> simp [CorePc.handler]
    · rw [hd] at hdr
      cases hdr
  | enterLast =>
    cases hs
    refine h.enterSystem ?_ ?_ ?_ ?_ ?_ ?_ ?_ (hok.goto ?_ ?_ (funext fun i => ?_) ?_) ?_
    all_goals simp [hpc]
    cases i <;> simp [CorePc.handler]
  | waitLast =>
    simp only [State.runCore, Option.ite_none_right_eq_some, Option.some.injEq] at hs
    obtain ⟨hr,rfl⟩ := hs
    refine h.leaveSystem hr ?_ ?_ ?_ ?_ ?_ ?_ (hok.goto ?_ ?_ (funext fun i => ?_) ?_) ?_
    all_goals simp [hpc]
    cases i <;> simp [CorePc.handler]

/-! A statement of the PIC changes nothing of the cores, but for their creation. -/

structure PicStep (s s' : State n) : Prop where
  cpu : s'.cpu = s.cpu
  core : s'.core = s.core
  booted : s'.booted = s.booted
  devnum : s'.devnum = s.devnum
  passed : ∀ c, s'.system.passed (some c) = s.system.passed (some c)
  ticket : ∀ c, s'.system.ticket (some c) = s.system.ticket (some c)

theorem Inv.picStep (h : Inv serialno s) (hst : PicStep s s') (hf : s'.fault = none)
    (hsystem : s'.system.Sound) (hpassed : s'.system.passed none = s'.pic.systemPassed)
    (hticket : (s'.system.ticket none).isSome = s'.pic.atSystem) (hpic : PicOk serialno s')
    (hact : s'.picActive = s.picActive ∧ s'.pic.started = s.pic.started)
    (hcreated : s'.pic.created n = s.pic.created n)
    (hjoined : ∀ c : Fin n, c.val < s'.pic.joined n → (s.cpu c).pc = .ended) :
    Inv serialno s' := by
  refine ⟨hf,hsystem,hst.core ▸ h.core,?_,?_,?_,hpic,?_,?_,?_⟩
  · intro q
    cases q with
    | none => exact hpassed
    | some c =>
      rw [hst.passed, h.passed, State.systemPassed, State.systemPassed, hst.cpu]
  · intro q
    cases q with
    | none => exact hticket
    | some c => rw [hst.ticket, h.ticket, State.atSystem, State.atSystem, hst.cpu]
  · intro c
    obtain ⟨hp,ht,hok⟩ := h.coreOk c
    refine ⟨?_,?_,?_⟩
    · rw [hst.core, hst.cpu, hp]
    · rw [hst.core, hst.cpu, ht]
    · rw [hst.cpu]
      exact hok
  · obtain ⟨hb,hd,ha⟩ := h.zeroOk
    refine ⟨?_,?_,?_⟩
    · rw [hst.booted, hst.cpu]
      exact hb
    · rw [hst.booted, hst.devnum]
      exact hd
    · rw [hact.1, hact.2, hst.cpu]
      exact ha
  · rw [hst.cpu, hcreated]
    exact h.created
  · rw [hst.cpu]
    exact hjoined

theorem Inv.picMoves (h : Inv serialno s) (hst : PicStep s s') (hsystem : s'.system = s.system)
    (hf : s'.fault = none) (hpassed : s'.pic.systemPassed = s.pic.systemPassed)
    (hat : s'.pic.atSystem = s.pic.atSystem) (hpic : PicOk serialno s')
    (hact : s'.picActive = s.picActive ∧ s'.pic.started = s.pic.started)
    (hcreated : s'.pic.created n = s.pic.created n)
    (hjoined : ∀ c : Fin n, c.val < s'.pic.joined n → (s.cpu c).pc = .ended) :
    Inv serialno s' := by
  refine h.picStep hst hf (hsystem ▸ h.system) ?_ ?_ hpic hact hcreated hjoined
  · rw [hsystem, h.passed, hpassed]
    rfl
  · rw [hsystem, h.ticket, hat]
    rfl

theorem PicStep.picTo (s : State n) (p : PicPc) : PicStep s (s.picTo p) :=
  ⟨rfl,rfl,rfl,rfl,fun _ => rfl,fun _ => rfl⟩

theorem Inv.picEnter (h : Inv serialno s) {p : PicPc} (hat : s.pic.atSystem = false)
    (hat' : p.atSystem = true) (hpassed : p.systemPassed = s.pic.systemPassed)
    (hpic : PicOk serialno (s.picTo p)) (hs : p.started = s.pic.started)
    (hcreated : p.created n = s.pic.created n) (hjoined : p.joined n = 0) :
    Inv serialno ({ s with system := s.system.enter (n+1) none }.picTo p) := by
  have ht := h.ticket none
  rw [State.atSystem, hat, Option.isSome_eq_false_iff, Option.isNone_iff_eq_none] at ht
  have hsound := h.system.enter ht
  rw [Fintype.card_option, Fintype.card_fin] at hsound
  have hst : PicStep s ({ s with system := s.system.enter (n+1) none }.picTo p) :=
    ⟨rfl,rfl,rfl,rfl,fun _ => rfl,fun c => Barrier.enter_ticket_of_ne (by simp)⟩
  refine h.picStep hst h.fault hsound ?_ ?_
    ⟨hpic.ncores,hpic.nterm,hpic.terms,hpic.blocked,hpic.drained,hpic.past,hpic.bound⟩
    ⟨rfl,hs⟩ hcreated fun c hc => ?_
  · exact (h.passed none).trans hpassed.symm
  · exact Barrier.enter_ticket.trans hat'.symm
  · change c.val < p.joined n at hc
    rw [hjoined] at hc
    cases hc

theorem Inv.picLeave (h : Inv serialno s) {p : PicPc} (hr : s.system.Released none)
    (hat' : p.atSystem = false) (hpassed : p.systemPassed = s.pic.systemPassed+1)
    (hpic : PicOk serialno (s.picTo p)) (hs : p.started = s.pic.started)
    (hcreated : p.created n = s.pic.created n) (hjoined : p.joined n = 0) :
    Inv serialno ({ s with system := s.system.leave none }.picTo p) := by
  have hst : PicStep s ({ s with system := s.system.leave none }.picTo p) :=
    ⟨rfl,rfl,rfl,rfl,fun c => Barrier.leave_passed_of_ne (by simp),
      fun c => Barrier.leave_ticket_of_ne (by simp)⟩
  refine h.picStep hst h.fault (h.system.leave hr) ?_ ?_
    ⟨hpic.ncores,hpic.nterm,hpic.terms,hpic.blocked,hpic.drained,hpic.past,hpic.bound⟩
    ⟨rfl,hs⟩ hcreated fun c hc => ?_
  · refine Barrier.leave_passed.trans ?_
    rw [h.passed]
    exact hpassed.symm
  · exact (congrArg Option.isSome Barrier.leave_ticket).trans hat'.symm
  · change c.val < p.joined n at hc
    rw [hjoined] at hc
    cases hc

/-! Each statement of the PIC. -/

theorem Inv.start (hn : 0 < n) (h : Inv serialno s) (hpc : s.pic = .start) :
    Inv serialno ({ s with
      picActive := true
      system := Barrier.fresh (Option (Fin n))
      core := Barrier.fresh (Fin n)
      ncores := n }.picTo (.create 0)) := by
  have : Nonempty (Fin n) := ⟨⟨0,hn⟩⟩
  have hunborn : ∀ c, (s.cpu c).pc = .unborn := by
    intro c
    rw [h.created, hpc]
    exact Nat.zero_le _
  have hpic := h.picOk
  refine ⟨h.fault,Barrier.sound_fresh,Barrier.sound_fresh,?_,?_,?_,?_,?_,?_,?_⟩
  · intro q
    cases q with
    | none => rfl
    | some c => simp [State.systemPassed, State.picTo, hunborn, Barrier.fresh]
  · intro q
    cases q with
    | none => rfl
    | some c => simp [State.atSystem, State.picTo, hunborn, Barrier.fresh]
  · intro c
    refine ⟨?_,?_,(h.coreOk c).cpu⟩
    · simp [State.picTo, hunborn, Barrier.fresh]
    · simp [State.picTo, hunborn, Barrier.fresh]
  · have hnterm := hpic.nterm
    have hterms := hpic.terms
    have hblocked := hpic.blocked
    rw [hpc] at hnterm hterms hblocked
    constructor
    all_goals simp [State.picTo]
    · exact hnterm
    · exact hterms
    · exact hblocked
  · refine ⟨h.zeroOk.booted,h.zeroOk.devnum,fun c _ => ?_⟩
    simp [State.picTo, hunborn]
  · intro c
    simp [State.picTo, hunborn]
  · intro c hc
    cases hc

theorem Inv.barriersFree (h : Inv serialno s) (hat : s.pic.atSystem = false)
    (he : ∀ c, (s.cpu c).pc = .ended) : s.barriersFree = true := by
  have hnone : ∀ q, s.atSystem q = false → s.system.ticket q = none := by
    intro q hq
    have ht := h.ticket q
    rwa [hq, Option.isSome_eq_false_iff, Option.isNone_iff_eq_none] at ht
  have hsystem : ∀ c, s.system.ticket (some c) = none := by
    intro c
    apply hnone
    simp [State.atSystem, he c]
  have hcore : ∀ c, s.core.ticket c = none := by
    intro c
    have ht := (h.coreOk c).ticket
    rw [he c] at ht
    simpa using ht
  simp [State.barriersFree, hnone none hat, hsystem, hcore]

theorem Inv.create (h : Inv serialno s) {c : Nat} (hpc : s.pic = .create c) (hc : c < n) :
    Inv serialno ((s.setCpu ⟨c,hc⟩ ((s.cpu ⟨c,hc⟩).goto .handlers)).picTo (.create (c+1))) := by
  have hpic := h.picOk
  have hunborn : (s.cpu ⟨c,hc⟩).pc = .unborn := by
    rw [h.created, hpc]
    exact Nat.le_refl c
  have hcpu : ∀ d, ((s.setCpu ⟨c,hc⟩ ((s.cpu ⟨c,hc⟩).goto .handlers)).cpu d).pc =
      if d.val = c then .handlers else (s.cpu d).pc := by
    intro d
    by_cases hd : d = ⟨c,hc⟩
    · simp [hd, State.setCpu, Cpu.goto]
    · simp only [State.setCpu, Function.update_of_ne hd, if_neg fun he => hd (Fin.ext he)]
  -- Nothing that is read off from where a core is tells a new one from one to come.
  have hsame : ∀ {β : Type} (f : CorePc → β), f .handlers = f .unborn → ∀ d,
      f ((s.setCpu ⟨c,hc⟩ ((s.cpu ⟨c,hc⟩).goto .handlers)).cpu d).pc = f (s.cpu d).pc := by
    intro β f hf d
    rw [hcpu]
    split
    · rename_i hd
      rw [hf, ← hunborn, (Fin.ext hd : d = ⟨c,hc⟩)]
    · rfl
  refine ⟨h.fault,h.system,h.core,?_,?_,?_,?_,⟨?_,h.zeroOk.devnum,?_⟩,?_,?_⟩
  · intro q
    cases q with
    | none => exact (h.passed none).trans (by simp [State.systemPassed, State.picTo, hpc])
    | some d => exact (h.passed (some d)).trans (hsame CorePc.systemPassed rfl d).symm
  · intro q
    cases q with
    | none => exact (h.ticket none).trans (by simp [State.atSystem, State.picTo, hpc])
    | some d => exact (h.ticket (some d)).trans (hsame CorePc.atSystem rfl d).symm
  · intro d
    obtain ⟨hp,ht,hok⟩ := h.coreOk d
    refine ⟨hp.trans (hsame CorePc.corePassed rfl d).symm,ht.trans (hsame CorePc.atCore rfl d).symm,?_⟩
    by_cases hd : d = ⟨c,hc⟩
    · simp only [State.picTo, State.setCpu, hd, Function.update_self]
      rw [hd] at hok
      refine hok.goto ?_ ?_ (funext fun i => ?_) ?_
      all_goals simp [hunborn]
      cases i <;> simp [CorePc.handler]
    · simp only [State.picTo, State.setCpu, Function.update_of_ne hd]
      exact hok
  · obtain ⟨hncores,hnterm,hterms,hblocked,_,_,_⟩ := hpic
    rw [hpc] at hncores hnterm hterms hblocked
    refine ⟨hncores,hnterm,hterms,hblocked,?_,?_,?_⟩
    all_goals simp [State.picTo]
    exact hc
  · intro d hd
    exact (h.zeroOk.booted d hd).trans (hsame CorePc.booted rfl d).symm
  · intro d hd
    have ha := h.zeroOk.active d hd
    rw [hpc] at ha
    exact ha.trans (congrArg (true && !·) (hsame CorePc.stopped rfl d).symm)
  · intro d
    have hd := h.created d
    rw [hpc] at hd
    simp only [State.picTo, hcpu, PicPc.created] at hd ⊢
    split
    · simp
      omega
    · rw [hd]
      omega
  · intro d hd
    cases hd

theorem Inv.runPic (hn : 0 < n) (h : Inv serialno s) {p : PicPc} (hpc : s.pic = p)
    (hs : s.runPic serialno p = some s') : Inv serialno s' := by
  have hpic := h.picOk
  have hbound := hpic.bound
  have hncores := hpic.ncores
  have hnterm := hpic.nterm
  have hterms := hpic.terms
  have hblocked := hpic.blocked
  rw [hpc] at hbound hncores hnterm hterms hblocked
  cases p with
  | start =>
    cases hs
    exact h.start hn hpc
  | create c =>
    simp only [State.runPic] at hs
    split at hs
    · cases hs
      exact h.create hpc ‹c < n›
    · cases hs
      simp only [PicPc.created] at hbound
      refine h.picMoves (PicStep.picTo s _) rfl h.fault ?_ ?_ ⟨?_,?_,?_,?_,?_,?_,?_⟩ ⟨rfl,?_⟩ ?_ ?_
      all_goals simp [hpc, State.picTo, hncores, hnterm, hterms, hblocked]
      omega
  | setTerminals =>
    cases hs
    refine h.picMoves ⟨rfl,rfl,rfl,rfl,fun _ => rfl,fun _ => rfl⟩ rfl h.fault ?_ ?_
      ⟨?_,?_,?_,?_,?_,?_,?_⟩ ⟨rfl,?_⟩ ?_ ?_
    all_goals simp [hpc, State.picTo, hncores, hterms, hblocked]
  | openTerminal i =>
    simp only [PicPc.nterm, PicPc.terms] at hnterm hterms hbound
    simp only [State.runPic, hnterm] at hs
    split at hs
    · rename_i hi
      cases hs
      refine h.picMoves ⟨rfl,rfl,rfl,rfl,fun _ => rfl,fun _ => rfl⟩ rfl h.fault ?_ ?_
        ⟨?_,?_,?_,?_,?_,?_,?_⟩ ⟨rfl,?_⟩ ?_ ?_
      all_goals simp [hpc, State.picTo, hncores, hterms, hblocked, Nat.succ_le_of_lt hi]
    · rename_i hi
      cases hs
      refine h.picMoves (PicStep.picTo s _) rfl h.fault ?_ ?_ ⟨?_,?_,?_,?_,?_,?_,?_⟩ ⟨rfl,?_⟩ ?_ ?_
      all_goals simp [hpc, State.picTo, hncores, hnterm, hterms, hblocked]
      omega
  | block =>
    cases hs
    refine h.picMoves ⟨rfl,rfl,rfl,rfl,fun _ => rfl,fun _ => rfl⟩ rfl h.fault ?_ ?_
      ⟨?_,?_,?_,?_,?_,?_,?_⟩ ⟨rfl,?_⟩ ?_ ?_
    all_goals simp [hpc, State.picTo, hncores, hnterm, hterms]
  | enterSystem =>
    cases hs
    refine h.picEnter ?_ ?_ ?_ ⟨?_,?_,?_,?_,?_,?_,?_⟩ ?_ ?_ ?_
    all_goals simp [hpc, State.picTo, hncores, hnterm, hterms, hblocked]
  | waitSystem =>
    simp only [State.runPic, Option.ite_none_right_eq_some, Option.some.injEq] at hs
    obtain ⟨hr,rfl⟩ := hs
    refine h.picLeave hr ?_ ?_ ⟨?_,?_,?_,?_,?_,?_,?_⟩ ?_ ?_ ?_
    all_goals simp [hpc, State.picTo, hncores, hnterm, hterms, hblocked]
  | test =>
    simp only [State.runPic] at hs
    split at hs
    · cases hs
      refine h.picMoves (PicStep.picTo s _) rfl h.fault ?_ ?_ ⟨?_,?_,?_,?_,?_,?_,?_⟩ ⟨rfl,?_⟩ ?_ ?_
      all_goals simp [hpc, State.picTo, hncores, hnterm, hterms, hblocked]
    · rename_i hact
      cases hs
      refine h.picMoves (PicStep.picTo s _) rfl h.fault ?_ ?_ ⟨?_,?_,?_,?_,?_,?_,?_⟩ ⟨rfl,?_⟩ ?_ ?_
      all_goals simp [hpc, State.picTo, hncores, hnterm, hterms, hblocked]
      exact Bool.not_eq_true _ ▸ hact
  | loop =>
    cases hs
    refine h.picMoves (PicStep.picTo s _) rfl h.fault ?_ ?_ ⟨?_,?_,?_,?_,?_,?_,?_⟩ ⟨rfl,?_⟩ ?_ ?_
    all_goals simp [hpc, State.picTo, hncores, hnterm, hterms, hblocked]
  | enterLast =>
    cases hs
    have hpast := hpic.past (by simp [hpc])
    refine h.picEnter ?_ ?_ ?_ ⟨?_,?_,?_,?_,?_,?_,?_⟩ ?_ ?_ ?_
    all_goals simp [hpc, State.picTo, hncores, hnterm, hterms, hblocked, hpast]
  | waitLast =>
    simp only [State.runPic, Option.ite_none_right_eq_some, Option.some.injEq] at hs
    obtain ⟨hr,rfl⟩ := hs
    have hpast := hpic.past (by simp [hpc])
    refine h.picLeave hr ?_ ?_ ⟨?_,?_,?_,?_,?_,?_,?_⟩ ?_ ?_ ?_
    all_goals simp [hpc, State.picTo, hncores, hnterm, hterms, hblocked, hpast]
  | drain =>
    cases hs
    have hpast := hpic.past (by simp [hpc])
    refine h.picMoves ⟨rfl,rfl,rfl,rfl,fun _ => rfl,fun _ => rfl⟩ rfl h.fault ?_ ?_
      ⟨?_,?_,?_,?_,?_,?_,?_⟩ ⟨rfl,?_⟩ ?_ ?_
    all_goals simp [hpc, State.picTo, hncores, hnterm, hterms, hblocked, hpast]
  | unblock =>
    have hpast := hpic.past (by simp [hpc])
    have hq := hpic.drained (by simp [hpc])
    simp only [State.runPic, hq, if_true] at hs
    cases hs
    refine h.picMoves ⟨rfl,rfl,rfl,rfl,fun _ => rfl,fun _ => rfl⟩ rfl h.fault ?_ ?_
      ⟨?_,?_,?_,?_,?_,?_,?_⟩ ⟨rfl,?_⟩ ?_ ?_
    all_goals simp [hpc, State.picTo, hncores, hnterm, hterms, hpast]
  | closeTerminal i =>
    have hpast := hpic.past (by simp [hpc])
    have hq := hpic.drained (by simp [hpc])
    simp only [PicPc.nterm, PicPc.terms] at hnterm hterms hbound
    simp only [State.runPic, hnterm] at hs
    split at hs
    · rename_i hi
      cases hs
      refine h.picMoves ⟨rfl,rfl,rfl,rfl,fun _ => rfl,fun _ => rfl⟩ rfl h.fault ?_ ?_
        ⟨?_,?_,?_,?_,?_,?_,?_⟩ ⟨rfl,?_⟩ ?_ ?_
      all_goals simp [hpc, State.picTo, hncores, hterms, hblocked, hpast, hq]
      all_goals omega
    · rename_i hi
      cases hs
      refine h.picMoves ⟨rfl,rfl,rfl,rfl,fun _ => rfl,fun _ => rfl⟩ rfl h.fault ?_ ?_
        ⟨?_,?_,?_,?_,?_,?_,?_⟩ ⟨rfl,?_⟩ ?_ ?_
      all_goals simp [hpc, State.picTo, hncores, hterms, hblocked, hpast, hq]
      omega
  | join c =>
    have hpast := hpic.past (by simp [hpc])
    have hq := hpic.drained (by simp [hpc])
    have hj := h.joined
    rw [hpc] at hj
    simp only [State.runPic] at hs
    split at hs
    · rename_i hc
      simp only [Option.ite_none_right_eq_some, Option.some.injEq] at hs
      obtain ⟨he,rfl⟩ := hs
      have hjoined : ∀ d : Fin n, d.val < c+1 → (s.cpu d).pc = .ended := by
        intro d hd
        rcases Nat.lt_succ_iff_lt_or_eq.mp hd with hd | hd
        · exact hj d hd
        · exact (Fin.ext hd : d = ⟨c,hc⟩) ▸ he
      refine h.picMoves (PicStep.picTo s _) rfl h.fault ?_ ?_ ⟨?_,?_,?_,?_,?_,?_,?_⟩ ⟨rfl,?_⟩ ?_
        hjoined
      all_goals simp [hpc, State.picTo, hncores, hnterm, hterms, hblocked, hpast, hq]
      exact hc
    · rename_i hc
      cases hs
      refine h.picMoves (PicStep.picTo s _) rfl h.fault ?_ ?_ ⟨?_,?_,?_,?_,?_,?_,?_⟩ ⟨rfl,?_⟩ ?_
        fun d _ => hj d (Nat.lt_of_lt_of_le d.isLt (Nat.le_of_not_lt hc))
      all_goals simp [hpc, State.picTo, hncores, hnterm, hterms, hblocked, hpast, hq]
  | destroy =>
    have hpast := hpic.past (by simp [hpc])
    have hq := hpic.drained (by simp [hpc])
    have hended : ∀ c, (s.cpu c).pc = .ended := by
      intro c
      refine h.joined c ?_
      rw [hpc]
      exact c.isLt
    simp only [State.runPic, h.barriersFree (by simp [hpc]) hended, if_true] at hs
    cases hs
    refine h.picMoves ⟨rfl,rfl,rfl,rfl,fun _ => rfl,fun _ => rfl⟩ rfl h.fault ?_ ?_
      ⟨?_,?_,?_,?_,?_,?_,?_⟩ ⟨rfl,?_⟩ ?_ fun c _ => hended c
    all_goals simp [hpc, State.picTo, hnterm, hterms, hblocked, hpast, hq]
  | returned => cases hs

/-! All runs. -/

theorem inv_boot (hn : 0 < n) : Inv serialno (boot n) := by
  have : Nonempty (Fin n) := ⟨⟨0,hn⟩⟩
  refine ⟨rfl,Barrier.sound_fresh,Barrier.sound_fresh,?_,?_,?_,?_,⟨fun _ _ => rfl,?_,fun _ _ => rfl⟩,
    ?_,?_⟩
  · intro q
    cases q <;> rfl
  · intro q
    cases q <;> rfl
  · intro c
    refine ⟨rfl,rfl,⟨rfl,rfl,funext fun i => ?_,?_⟩⟩
    · cases i <;> simp [boot, CorePc.handler]
    · simp [boot]
  · constructor
    all_goals simp [boot]
  · simp [boot]
  · simp [boot]
  · simp [boot]

theorem Inv.queue (h : Inv serialno s) {k : Nat} (hd : s.pic.drained = true → k = 0) :
    Inv serialno { s with queued := k } := by
  have hpic := h.picOk
  exact ⟨h.fault,h.system,h.core,h.passed,h.ticket,
    fun c => ⟨(h.coreOk c).passed,(h.coreOk c).ticket,(h.coreOk c).cpu⟩,
    ⟨hpic.ncores,hpic.nterm,hpic.terms,hpic.blocked,hd,hpic.past,hpic.bound⟩,
    ⟨h.zeroOk.booted,h.zeroOk.devnum,h.zeroOk.active⟩,h.created,h.joined⟩

theorem Inv.raiseInterrupt (h : Inv serialno s) {p : Option (Fin n)} (hp : s.systemPassed p = 1)
    (hs : s.atSystem p = false) (d : Fin n) : s.raiseInterrupt d = s := by
  rw [State.raiseInterrupt, if_pos (h.live hp hs d)]

theorem PicPc.ncores_of_passed {p : PicPc} (h : p.systemPassed = 1 ∨
    p.systemPassed = 0 ∧ p.atSystem = true) : p.ncores n = n := by
  cases p <;> simp at h ⊢

theorem Inv.exec (hn : 0 < n) (h : Inv serialno s) {a : Label n}
    (hs : s.exec serialno a = some s') : Inv serialno s' := by
  simp only [State.exec] at hs
  rw [if_neg (by simp [h.fault])] at hs
  cases a with
  | core c => exact h.runCore rfl hs
  | ici c d =>
    simp only [Option.ite_none_right_eq_some, Option.some.injEq] at hs
    obtain ⟨hpc,rfl⟩ := hs
    have hp : s.systemPassed (some c) = 1 := by simp [State.systemPassed, hpc]
    have hat : s.atSystem (some c) = false := by simp [State.atSystem, hpc]
    have hc : s.ncores = n :=
      h.picOk.ncores.trans (PicPc.ncores_of_passed (h.between hp hat none))
    have hd : d.val < s.ncores := by
      rw [hc]
      exact d.isLt
    rw [State.cpuIci, if_pos hd, h.raiseInterrupt hp hat]
    exact h
  | transfer c =>
    simp only [Option.ite_none_right_eq_some, Option.some.injEq] at hs
    obtain ⟨hpc,rfl⟩ := hs
    obtain ⟨hb,hd⟩ := h.blocked (p := some c) (by simp [State.systemPassed, hpc])
      (by simp [State.atSystem, hpc])
    rw [State.interruptPicThread, if_pos hb]
    refine h.queue fun hdr => ?_
    rw [hd] at hdr
    cases hdr
  | pic => exact h.runPic hn rfl hs
  | raise d =>
    simp only [Option.ite_none_right_eq_some, Option.some.injEq] at hs
    obtain ⟨hpc,rfl⟩ := hs
    rw [h.raiseInterrupt (p := none) (by simp [State.systemPassed, hpc])
      (by simp [State.atSystem, hpc])]
    exact h
  | drain =>
    simp only [Option.ite_none_right_eq_some, Option.some.injEq] at hs
    obtain ⟨hpc,rfl⟩ := hs
    exact h.queue fun _ => rfl

theorem inv_reachable (hn : 0 < n) (hr : (system n serialno).Reachable s) : Inv serialno s :=
  (system n serialno).invariant (Inv serialno) (fun _ he => he ▸ inv_boot hn)
    (fun _ _ _ hi hs => hi.exec hn hs) hr

/-! Whoever has not ended can go on, or waits for somebody who can. -/

def CorePc.left : CorePc → Nat
  | .unborn => 30
  | .handlers => 29
  | .mask => 28
  | .timerCreate => 27
  | .enterSystem => 26
  | .waitSystem => 25
  | .part .processes => 24
  | .part .devices => 23
  | .part .files => 22
  | .part .scheduler => 21
  | .part .init => 20
  | .enterSync => 19
  | .waitSync => 18
  | .setAlarm => 17
  | .setIci => 16
  | .idle => 15
  | .clearAlarm => 14
  | .clearIci => 13
  | .reset => 12
  | .timerDelete => 11
  | .enterCore => 10
  | .waitCore => 9
  | .stopPic => 8
  | .interruptPic => 7
  | .enterLast => 6
  | .waitLast => 5
  | .ended => 0

def PicPc.left (n t : Nat) : PicPc → Nat
  | .start => 2*n+2*t+16
  | .create c => (n-c)+n+2*t+15
  | .setTerminals => n+2*t+14
  | .openTerminal i => (t-i)+n+t+13
  | .block => n+t+12
  | .enterSystem => n+t+11
  | .waitSystem => n+t+10
  | .loop => n+t+9
  | .test => n+t+8
  | .enterLast => n+t+7
  | .waitLast => n+t+6
  | .drain => n+t+5
  | .unblock => n+t+4
  | .closeTerminal i => (t-i)+n+3
  | .join c => (n-c)+2
  | .destroy => 1
  | .returned => 0

def State.left (serialno : Nat) (s : State n) : Nat :=
  (Finset.univ.sum fun c => (s.cpu c).pc.left)+s.pic.left n serialno

def State.Held (s : State n) (c : Fin n) : Prop :=
  (s.cpu c).pc = .unborn ∨ (s.cpu c).pc = .ended ∨
    ((s.cpu c).pc.atSystem = true ∧ ¬s.system.Released (some c)) ∨
    ((s.cpu c).pc.atCore = true ∧ ¬s.core.Released c)

theorem State.left_lt_of_core {c : Fin n} {k : Cpu} (hcpu : s'.cpu = Function.update s.cpu c k)
    (hpic : s'.pic = s.pic) (hk : k.pc.left < (s.cpu c).pc.left) :
    s'.left serialno < s.left serialno := by
  have hsum : (Finset.univ.sum fun d => (s'.cpu d).pc.left) <
      Finset.univ.sum fun d => (s.cpu d).pc.left := by
    refine Finset.sum_lt_sum (fun d _ => ?_) ⟨c,Finset.mem_univ c,?_⟩
    · rw [hcpu]
      by_cases hd : d = c
      · rw [hd, Function.update_self]
        exact hk.le
      · rw [Function.update_of_ne hd]
    · rw [hcpu, Function.update_self]
      exact hk
  rw [State.left, State.left, hpic]
  omega

theorem State.runCore_left {c : Fin n} {p : CorePc} (hpc : (s.cpu c).pc = p)
    (hs : s.runCore c (s.cpu c) p = some s') : s'.left serialno < s.left serialno := by
  have hstep : s'.pic = s.pic ∧ ∃ k, s'.cpu = Function.update s.cpu c k ∧ k.pc.left < p.left := by
    cases p with
    | unborn => cases hs
    | ended => cases hs
    | part p =>
      cases hs
      cases p <;> exact ⟨rfl,_,rfl,by simp [Part.next, Cpu.goto, CorePc.left]⟩
    | interruptPic =>
      cases hs
      simp only [State.interruptPicThread]
      split <;> exact ⟨rfl,_,rfl,by simp [Cpu.goto, CorePc.left]⟩
    | waitSystem | waitCore =>
      simp only [State.runCore, Option.ite_none_right_eq_some, Option.some.injEq] at hs
      obtain ⟨hr,rfl⟩ := hs
      refine ⟨rfl,_,rfl,?_⟩
      simp only [Cpu.goto]
      split <;> simp [CorePc.left]
    | waitSync | waitLast =>
      simp only [State.runCore, Option.ite_none_right_eq_some, Option.some.injEq] at hs
      obtain ⟨hr,rfl⟩ := hs
      exact ⟨rfl,_,rfl,by simp [Cpu.goto, CorePc.left]⟩
    | _ =>
      cases hs
      exact ⟨rfl,_,rfl,by simp [Cpu.goto, Cpu.interruptHandler, CorePc.left]⟩
  obtain ⟨hpic,k,hcpu,hk⟩ := hstep
  exact State.left_lt_of_core hcpu hpic (hpc ▸ hk)

theorem Inv.runs (h : Inv serialno s) {c : Fin n} (hc : ¬s.Held c) :
    ∃ s', s.exec serialno (.core c) = some s' ∧ s'.left serialno < s.left serialno := by
  have hsome : ∃ s', s.runCore c (s.cpu c) (s.cpu c).pc = some s' := by
    simp only [State.Held, not_or, not_and, not_not] at hc
    obtain ⟨hu,he,hsystem,hcore⟩ := hc
    cases hpc : (s.cpu c).pc with
    | unborn => exact absurd hpc hu
    | ended => exact absurd hpc he
    | waitSystem | waitLast =>
      have hr := hsystem (by simp [hpc])
      simp [State.runCore, hr]
    | waitSync | waitCore =>
      have hr := hcore (by simp [hpc])
      simp [State.runCore, hr]
    | _ => exact ⟨_,rfl⟩
  obtain ⟨s',hs⟩ := hsome
  refine ⟨s',?_,State.runCore_left rfl hs⟩
  simp only [State.exec]
  rw [if_neg (by simp [h.fault])]
  exact hs

theorem Inv.system_released (h : Inv serialno s) {p q : Option (Fin n)}
    (hlt : s.systemPassed q < s.systemPassed p) : s.system.Released q := by
  rw [← h.passed, ← h.passed] at hlt
  exact (h.system.released hlt).1

theorem Inv.core_released (h : Inv serialno s) {c d : Fin n}
    (hlt : (s.cpu d).pc.corePassed < (s.cpu c).pc.corePassed) : s.core.Released d := by
  rw [← (h.coreOk d).passed, ← (h.coreOk c).passed] at hlt
  exact (h.core.released hlt).1

theorem Inv.not_all_at_core (h : Inv serialno s)
    (hall : ∀ c, (s.cpu c).pc.atCore = true ∧ ¬s.core.Released c) : False := by
  have hin : ∀ c, s.core.ticket c≠none := by
    intro c hc
    have ht := (h.coreOk c).ticket
    rw [hc, (hall c).1] at ht
    cases ht
  obtain ⟨c,hr⟩ := h.core.progress hin
  exact (hall c).2 hr

theorem Inv.not_all_at_system (h : Inv serialno s)
    (hall : ∀ q, s.atSystem q = true ∧ ¬s.system.Released q) : False := by
  have hin : ∀ q, s.system.ticket q≠none := by
    intro q hq
    have ht := h.ticket q
    rw [hq, (hall q).1] at ht
    cases ht
  obtain ⟨q,hr⟩ := h.system.progress hin
  exact (hall q).2 hr

theorem Inv.held_cases (h : Inv serialno s) (hcreated : s.pic.created n = n) {c : Fin n}
    (hc : s.Held c) : (s.cpu c).pc = .ended ∨
      ((s.cpu c).pc.atSystem = true ∧ ¬s.system.Released (some c)) ∨
      ((s.cpu c).pc.atCore = true ∧ ¬s.core.Released c) := by
  rcases hc with hu | hc
  · rw [h.created, hcreated] at hu
    exact absurd c.isLt (by omega)
  · exact hc

theorem CorePc.passed_of_atCore {p : CorePc} (h : p.atCore = true) :
    p.systemPassed = 1 ∧ p.corePassed≤1 := by
  cases p <;> simp at h ⊢

theorem CorePc.passed_of_atSystem {p : CorePc} (h : p.atSystem = true) (hp : 0 < p.systemPassed) :
    p.corePassed = 2 ∧ p.stopped = true := by
  cases p <;> simp at h hp ⊢

theorem CorePc.passed_of_stopped {p : CorePc} (h : p.stopped = true) : p.corePassed = 2 := by
  cases p <;> simp at h ⊢

theorem Inv.loop_runs (hn : 0 < n) (h : Inv serialno s) (hpc : s.pic = .test)
    (hact : s.picActive = true) : ∃ c, ¬s.Held c := by
  by_contra hall
  simp only [not_exists, not_not] at hall
  have hheld := fun c => h.held_cases (by simp [hpc]) (hall c)
  have hzero : (s.cpu ⟨0,hn⟩).pc.stopped = false := by
    have ha := h.zeroOk.active ⟨0,hn⟩ rfl
    rw [hact, hpc] at ha
    simpa using ha
  have hsystem : ∀ c, ¬s.system.Released (some c) → 0 < (s.cpu c).pc.systemPassed := by
    intro c hr
    by_contra hp
    refine hr (h.system_released (p := none) ?_)
    simp only [State.systemPassed, hpc, PicPc.systemPassed]
    omega
  have hc0 : (s.cpu ⟨0,hn⟩).pc.corePassed≤1 ∧ ¬s.core.Released ⟨0,hn⟩ := by
    rcases hheld ⟨0,hn⟩ with he | ⟨hat,hr⟩ | ⟨hat,hr⟩
    · simp [he] at hzero
    · have hs := (CorePc.passed_of_atSystem hat (hsystem _ hr)).2
      rw [hzero] at hs
      cases hs
    · exact ⟨(CorePc.passed_of_atCore hat).2,hr⟩
  have hle : ∀ c, (s.cpu c).pc.corePassed≤1 := by
    intro c
    by_contra hlt
    exact hc0.2 (h.core_released (c := c) (by omega))
  apply h.not_all_at_core
  intro c
  have hc := hle c
  rcases hheld c with he | ⟨hat,hr⟩ | hat
  · simp [he] at hc
  · have hp := (CorePc.passed_of_atSystem hat (hsystem c hr)).1
    omega
  · exact hat

theorem Inv.first_runs (h : Inv serialno s) (hpc : s.pic = .waitSystem)
    (hr : ¬s.system.Released none) : ∃ c, ¬s.Held c := by
  by_contra hall
  simp only [not_exists, not_not] at hall
  have hle : ∀ c, (s.cpu c).pc.systemPassed = 0 := by
    intro c
    by_contra hp
    refine hr (h.system_released (p := some c) ?_)
    simp only [State.systemPassed, hpc, PicPc.systemPassed]
    omega
  apply h.not_all_at_system
  intro q
  cases q with
  | none => exact ⟨by simp [State.atSystem, hpc],hr⟩
  | some c =>
    have hc := hle c
    rcases h.held_cases (by simp [hpc]) (hall c) with he | hat | ⟨hat,_⟩
    · simp [he] at hc
    · exact hat
    · have hp := (CorePc.passed_of_atCore hat).1
      omega

theorem Inv.last_runs (hn : 0 < n) (h : Inv serialno s) (hpc : s.pic = .waitLast)
    (hr : ¬s.system.Released none) : ∃ c, ¬s.Held c := by
  by_contra hall
  simp only [not_exists, not_not] at hall
  have hle : ∀ c, (s.cpu c).pc.systemPassed≤1 := by
    intro c
    by_contra hp
    refine hr (h.system_released (p := some c) ?_)
    simp only [State.systemPassed, hpc, PicPc.systemPassed]
    omega
  have hzero : (s.cpu ⟨0,hn⟩).pc.corePassed = 2 := by
    have ha := h.zeroOk.active ⟨0,hn⟩ rfl
    rw [h.picOk.past (by simp [hpc]), hpc] at ha
    exact CorePc.passed_of_stopped (by simpa using ha)
  apply h.not_all_at_system
  intro q
  cases q with
  | none => exact ⟨by simp [State.atSystem, hpc],hr⟩
  | some c =>
    have hc := hle c
    rcases h.held_cases (by simp [hpc]) (hall c) with he | hat | ⟨hat,hrc⟩
    · simp [he] at hc
    · exact hat
    · have hp := (CorePc.passed_of_atCore hat).2
      exact absurd (h.core_released (c := ⟨0,hn⟩) (by omega)) hrc

theorem Inv.join_runs (h : Inv serialno s) (hpassed : s.pic.systemPassed = 2)
    (hcreated : s.pic.created n = n) {c : Fin n} (hc : (s.cpu c).pc≠.ended) : ¬s.Held c := by
  intro hheld
  have hlt : s.systemPassed (some c) < s.systemPassed none := by
    simp only [State.systemPassed, hpassed]
    cases hpc : (s.cpu c).pc <;> simp [hpc] at hc ⊢
  rcases h.held_cases hcreated hheld with he | ⟨_,hr⟩ | ⟨hat,_⟩
  · exact hc he
  · exact hr (h.system_released hlt)
  · have hw := (h.system_wait hlt).1
    simp only [State.atSystem] at hw
    cases hpc : (s.cpu c).pc <;> simp [hpc] at hat hw

theorem State.left_lt_of_pic {p : PicPc} (hcpu : ∀ c, (s'.cpu c).pc.left≤(s.cpu c).pc.left)
    (hpic : s'.pic = p) (hp : p.left n serialno < s.pic.left n serialno) :
    s'.left serialno < s.left serialno := by
  have hsum : (Finset.univ.sum fun d => (s'.cpu d).pc.left)≤
      Finset.univ.sum fun d => (s.cpu d).pc.left :=
    Finset.sum_le_sum fun d _ => hcpu d
  rw [State.left, State.left, hpic]
  omega

/-- Until vm_boot returns, some thread can go on, to where less is left. -/
theorem Inv.progress (hn : 0 < n) (h : Inv serialno s) (hend : s.pic≠.returned) :
    ∃ a s', s.exec serialno a = some s' ∧ s'.left serialno < s.left serialno := by
  have hcore : (∃ c, ¬s.Held c) →
      ∃ a s', s.exec serialno a = some s' ∧ s'.left serialno < s.left serialno := by
    intro ⟨c,hc⟩
    obtain ⟨s',hs⟩ := h.runs hc
    exact ⟨.core c,s',hs⟩
  have hpic : ∀ s' p, s.runPic serialno s.pic = some s' → s'.pic = p →
      (∀ c, (s'.cpu c).pc.left≤(s.cpu c).pc.left) → p.left n serialno < s.pic.left n serialno →
      ∃ a s', s.exec serialno a = some s' ∧ s'.left serialno < s.left serialno := by
    intro s' p hs hp hcpu hlt
    refine ⟨.pic,s',?_,State.left_lt_of_pic hcpu hp hlt⟩
    simp only [State.exec]
    rw [if_neg (by simp [h.fault])]
    exact hs
  have hsame : ∀ c, (s.cpu c).pc.left≤(s.cpu c).pc.left := fun _ => Nat.le_refl _
  have hbound := h.picOk.bound
  have hnterm := h.picOk.nterm
  cases hpc : s.pic with
  | returned => exact absurd hpc hend
  | create c =>
    rw [hpc] at hbound
    simp only [PicPc.created] at hbound
    rw [hpc] at hpic
    by_cases hc : c < n
    · refine hpic _ (.create (c+1)) (dif_pos hc) rfl (fun d => ?_) ?_
      · simp only [State.picTo, State.setCpu]
        by_cases hd : d = ⟨c,hc⟩
        · have hu : (s.cpu ⟨c,hc⟩).pc = .unborn := by
            rw [h.created, hpc]
            exact Nat.le_refl c
          rw [hd, Function.update_self, hu]
          simp [Cpu.goto, CorePc.left]
        · rw [Function.update_of_ne hd]
      · simp only [PicPc.left]
        omega
    · refine hpic _ .setTerminals (dif_neg hc) rfl hsame ?_
      simp only [PicPc.left]
      omega
  | openTerminal i =>
    rw [hpc] at hpic
    by_cases hi : i < s.nterm
    · refine hpic _ (.openTerminal (i+1)) (if_pos hi) rfl hsame ?_
      rw [hnterm, hpc] at hi
      simp only [PicPc.nterm] at hi
      simp only [PicPc.left]
      omega
    · refine hpic _ .block (if_neg hi) rfl hsame ?_
      simp only [PicPc.left]
      omega
  | closeTerminal i =>
    rw [hpc] at hpic
    by_cases hi : i < s.nterm
    · refine hpic _ (.closeTerminal (i+1)) (if_pos hi) rfl hsame ?_
      rw [hnterm, hpc] at hi
      simp only [PicPc.nterm] at hi
      simp only [PicPc.left]
      omega
    · refine hpic _ (.join 0) (if_neg hi) rfl hsame ?_
      simp only [PicPc.left]
      omega
  | waitSystem =>
    by_cases hr : s.system.Released none
    · rw [hpc] at hpic
      refine hpic _ .test (if_pos hr) rfl hsame ?_
      simp only [PicPc.left]
      omega
    · exact hcore (h.first_runs hpc hr)
  | waitLast =>
    by_cases hr : s.system.Released none
    · rw [hpc] at hpic
      refine hpic _ .drain (if_pos hr) rfl hsame ?_
      simp only [PicPc.left]
      omega
    · exact hcore (h.last_runs hn hpc hr)
  | test =>
    by_cases hact : s.picActive = true
    · exact hcore (h.loop_runs hn hpc hact)
    · rw [hpc] at hpic
      refine hpic _ .enterLast (if_neg hact) rfl hsame ?_
      simp only [PicPc.left]
      omega
  | join c =>
    rw [hpc] at hpic
    by_cases hc : c < n
    · by_cases he : (s.cpu ⟨c,hc⟩).pc = .ended
      · refine hpic _ (.join (c+1)) ((dif_pos hc).trans (if_pos he)) rfl hsame ?_
        simp only [PicPc.left]
        omega
      · exact hcore ⟨_,h.join_runs (by simp [hpc]) (by simp [hpc]) he⟩
    · refine hpic _ .destroy (dif_neg hc) rfl hsame ?_
      simp only [PicPc.left]
      omega
  | unblock =>
    have hq := h.picOk.drained (by simp [hpc])
    rw [hpc] at hpic
    refine hpic _ (.closeTerminal 0) (if_pos hq) rfl hsame ?_
    simp only [PicPc.left]
    omega
  | destroy =>
    have he : ∀ c, (s.cpu c).pc = .ended := by
      intro c
      refine h.joined c ?_
      rw [hpc]
      exact c.isLt
    have hfree := h.barriersFree (by simp [hpc]) he
    rw [hpc] at hpic
    refine hpic _ .returned (if_pos hfree) rfl hsame ?_
    simp only [PicPc.left]
    omega
  | _ =>
    rw [hpc] at hpic
    refine hpic _ _ rfl rfl hsame ?_
    simp only [State.picTo, PicPc.left]
    omega

/-- The handlers of the interrupts while the kernel runs are those that the model of the
interrupts begins with. -/
theorem CorePc.handler_idle (zero : Bool) : CorePc.idle.handler zero = Bios.handlers zero := by
  funext i
  cases i <;> cases zero <;> rfl

theorem CorePc.corePassed_le (p : CorePc) : p.corePassed≤2 := by
  cases p <;> simp

theorem CorePc.off {p : CorePc} (h : p.corePassed = 2 ∨ p.corePassed = 1 ∧ p.atCore = true)
    (zero : Bool) : p.hasTimer = false ∧ ∀ i, p.handler zero i = none := by
  refine ⟨?_,fun i => ?_⟩
  · cases p <;> simp at h ⊢
  · cases p <;> cases i <;> simp [handler] at h ⊢

/-- No fault, whatever the order of the steps: interrupts are raised at living threads, no
SIGUSR1 meets the handler on the PIC, and the barriers are destroyed after their use. The
PIC is stopped when all cores have given up their timers and handlers. -/
theorem vm_safe (n serialno : Nat) (hn : 0 < n) (s : State n)
    (hr : (system n serialno).Reachable s) :
    s.fault = none ∧ (s.pic≠.start → s.picActive = false →
      ∀ c, (s.cpu c).timer = false ∧ ∀ i, (s.cpu c).intvec i = none) := by
  have h := inv_reachable hn hr
  refine ⟨h.fault,fun hpc hact c => ?_⟩
  have hzero : (s.cpu ⟨0,hn⟩).pc.corePassed = 2 := by
    have ha := h.zeroOk.active ⟨0,hn⟩ rfl
    have hs : s.pic.started = true := by
      cases hp : s.pic <;> simp [hp] at hpc ⊢
    rw [hact, hs] at ha
    exact CorePc.passed_of_stopped (by simpa using ha)
  have hoff : (s.cpu c).pc.corePassed = 2 ∨
      (s.cpu c).pc.corePassed = 1 ∧ (s.cpu c).pc.atCore = true := by
    by_cases hlt : (s.cpu c).pc.corePassed < (s.cpu ⟨0,hn⟩).pc.corePassed
    · have he := (h.core.released (b := s.core) (p := ⟨0,hn⟩) (q := c)
        (by rwa [(h.coreOk _).passed, (h.coreOk _).passed])).2
      rw [(h.coreOk _).passed, (h.coreOk _).passed] at he
      exact .inr ⟨by omega,h.core_wait hlt⟩
    · have hle := CorePc.corePassed_le (s.cpu c).pc
      exact .inl (by omega)
  have hok := (h.coreOk c).cpu
  obtain ⟨ht,hv⟩ := CorePc.off hoff (c.val = 0)
  rw [hok.timer, hok.intvec]
  exact ⟨ht,hv⟩

def firstIdle : List (Label 2) :=
  List.flatten [List.replicate 11 .pic,List.replicate 4 (.core 0),List.replicate 4 (.core 1),
    List.replicate 7 (.core 0),List.replicate 5 (.core 1)]

theorem vm_safe_idle : ∃ s : State 2, (s.cpu 1).pc = .idle ∧ s.fault = none := by
  obtain ⟨s,hr,hc⟩ := (system 2 3).reaches (s := boot 2) rfl firstIdle
    (fun s => (s.cpu 1).pc = .idle) (by decide)
  exact ⟨s,hc,(vm_safe 2 3 (by decide) s hr).1⟩

theorem CorePc.booted_of_core {p : CorePc} (h : 0 < p.corePassed ∨ p.atCore = true) :
    p.booted = [.processes,.devices,.files,.scheduler,.init] := by
  cases p <;> simp at h ⊢

theorem CorePc.masked_of_passed {p : CorePc} (h : p.systemPassed = 1 ∨
    p.systemPassed = 0 ∧ p.atSystem = true) : p.masked = true := by
  cases p <;> simp at h ⊢

theorem PicPc.terms_of_passed {p : PicPc} (h : p.systemPassed = 1 ∨
    p.systemPassed = 0 ∧ p.atSystem = true) : p.terms serialno = serialno := by
  cases p <;> simp at h ⊢

/-- When a core comes to its idle thread the kernel has been initialised, once and in
order, for all terminals; every core exists and blocks SIGALRM as the PIC does, and the
timer and the handlers are in place. -/
theorem scheduler_entered (n serialno : Nat) (hn : 0 < n) (s : State n)
    (hr : (system n serialno).Reachable s) (c : Fin n) (hc : (s.cpu c).pc = .idle) :
    s.booted = [.processes,.devices,.files,.scheduler,.init] ∧ s.devnum = serialno ∧
      s.ncores = n ∧ s.nterm = serialno ∧ s.terms = serialno ∧ s.blocked = true ∧
      (s.cpu c).timer = true ∧ (s.cpu c).intvec = Bios.handlers (c.val = 0) ∧
      ∀ d, (s.cpu d).pc.live = true ∧ (s.cpu d).masked = true := by
  have h := inv_reachable hn hr
  have hp : s.systemPassed (some c) = 1 := by simp [State.systemPassed, hc]
  have hat : s.atSystem (some c) = false := by simp [State.atSystem, hc]
  have hpic := h.between hp hat none
  have hok := (h.coreOk c).cpu
  have hbooted : s.booted = [.processes,.devices,.files,.scheduler,.init] := by
    rw [h.zeroOk.booted ⟨0,hn⟩ rfl]
    apply CorePc.booted_of_core
    by_cases hlt : 0 < (s.cpu ⟨0,hn⟩).pc.corePassed
    · exact .inl hlt
    · have hlt : (s.cpu ⟨0,hn⟩).pc.corePassed < (s.cpu c).pc.corePassed := by
        rw [hc]
        exact Nat.lt_succ_of_le (Nat.le_of_not_lt hlt)
      exact .inr (h.core_wait hlt)
  refine ⟨hbooted,h.zeroOk.devnum (by simp [hbooted]),
    h.picOk.ncores.trans (PicPc.ncores_of_passed hpic),
    h.picOk.nterm.trans (PicPc.nterm_of_passed hpic),
    h.picOk.terms.trans (PicPc.terms_of_passed hpic),(h.blocked hp hat).1,?_,?_,fun d => ?_⟩
  · rw [hok.timer, hc]
    rfl
  · rw [hok.intvec, hc, CorePc.handler_idle]
  · exact ⟨h.live hp hat d,
      (h.coreOk d).cpu.masked.trans (CorePc.masked_of_passed (h.between hp hat (some d)))⟩

theorem scheduler_entered_two : ∃ s : State 2, (s.cpu 1).pc = .idle ∧ s.devnum = 3 ∧
    (s.cpu 1).intvec .ALARM = some .yieldHandler := by
  obtain ⟨s,hr,hc⟩ := (system 2 3).reaches (s := boot 2) rfl firstIdle
    (fun s => (s.cpu 1).pc = .idle) (by decide)
  obtain ⟨_,hd,_,_,_,_,_,hv,_⟩ := scheduler_entered 2 3 (by decide) s hr 1 hc
  exact ⟨s,hc,hd,congrFun hv .ALARM⟩

end

end TinyOS.Bios.Vm
