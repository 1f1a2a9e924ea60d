import TinyOS.Bios.Model

/-! What a stack of calls says of the core it runs on. A function of the kernel is called
with preemption on, with preemption off, or by a handler that a signal has started, when
SIGUSR1 is blocked behind the back of the kernel; it leaves preemption as it found it. -/
namespace TinyOS.Bios
variable {κ : Type*}

structure Flags where
  preemption : Bool
  intDisabled : Bool
  blocked : Bool

inductive Level where
  | on | sig | off
  deriving DecidableEq

def Level.flags : Level → Flags
  | .on => ⟨true,false,false⟩
  | .sig => ⟨true,false,true⟩
  | .off => ⟨false,true,true⟩

def Level.pre : Level → Bool
  | .on | .sig => true
  | .off => false

def Level.back : Level → Level
  | .on | .sig => .on
  | .off => .off

def Level.after (preempt : Bool) : Level := if preempt then .on else .off

@[simp] theorem Level.pre_flags (L : Level) : L.flags.preemption = L.pre := by
  cases L <;> rfl

@[simp] theorem Level.pre_back (L : Level) : L.back.pre = L.pre := by
  cases L <;> rfl

@[simp] theorem Level.after_pre (L : Level) : Level.after L.pre = L.back := by
  cases L <;> rfl

theorem Level.back_of_ne {L : Level} (h : L≠.sig) : L.back = L := by
  cases L <;> first | rfl | exact absurd rfl h

mutual

/-- The call on top of the stack is in control of a core with these flags. -/
inductive Fits : List (Frame κ) → Flags → Prop where
  | base {l : List (Frame κ)} {L : Level} (h : Base l L) : Fits l L.flags
  | yieldCancel {l : List (Frame κ)} {L : Level} (h : Base l L) :
      Fits (.yield L.pre .cancel::l) L.flags
  | yieldOff {l : List (Frame κ)} {L : Level} (h : Base l L) : Fits (.yield L.pre .off::l) L.flags
  | yieldSwitch {l : List (Frame κ)} {L : Level} (h : Base l L) :
      Fits (.yield L.pre (.switch L.pre)::l) Level.off.flags
  | yieldRet {l : List (Frame κ)} {L : Level} (h : Base l L) :
      Fits (.yield L.pre .ret::l) L.back.flags
  | bracketOff {f : Bracket} {l : List (Frame κ)} {L : Level} (h : Base l L)
      (hf : f = .serialRead → L = .on) : Fits (.bracket f L.pre .off::l) L.flags
  | bracketRet {f : Bracket} {l : List (Frame κ)} {L : Level} (h : Base l L) :
      Fits (.bracket f L.pre .ret::l) L.back.flags
  /-- A new context has the signal mask of the thread that made it. -/
  | gainPreempt {preempt b : Bool} {l : List (Frame κ)} (h : Fits l (Level.after preempt).flags)
      (hb : preempt = false → b = true) : Fits (.gain preempt .preempt::l) ⟨false,true,b⟩
  | gainTimer {preempt : Bool} {l : List (Frame κ)} (h : Fits l (Level.after preempt).flags) :
      Fits (.gain preempt .timer::l) (Level.after preempt).flags
  | gainRet {preempt : Bool} {l : List (Frame κ)} (h : Fits l (Level.after preempt).flags) :
      Fits (.gain preempt .ret::l) (Level.after preempt).flags
  | setTimer {usec : Nat} {pc : TimerPc κ} {wrote : List κ} {l : List (Frame κ)} {F : Flags}
      (h : Fits l F) : Fits (.setTimer usec pc wrote::l) F
  | preemptOff {l : List (Frame κ)} {L : Level} (h : Save l L.pre) :
      Fits (.setPreemption .disable::l) L.flags
  | exchangeOff {l : List (Frame κ)} {p : Bool} (h : Save l p) :
      Fits (.setPreemption .exchangeOff::l) ⟨p,true,true⟩
  | exchangeOn {l : List (Frame κ)} {b : Bool} (h : Fits l Level.on.flags) :
      Fits (.setPreemption .exchangeOn::l) ⟨false,true,b⟩
  | preemptOn {l : List (Frame κ)} {b : Bool} (h : Fits l Level.on.flags) :
      Fits (.setPreemption .enable::l) ⟨true,true,b⟩
  | preemptDone {l : List (Frame κ)} (h : Fits l Level.on.flags) :
      Fits (.setPreemption .done::l) Level.on.flags
  | disableLoad {wrote : List κ} {l : List (Frame κ)} {L : Level} (h : Save l L.pre) :
      Fits (.disable .load wrote::.setPreemption .exchangeOff::l) L.flags
  | disableTest {k : κ} {wrote : List κ} {l : List (Frame κ)} {L : Level} (h : Save l L.pre) :
      Fits (.disable (.test k) wrote::.setPreemption .exchangeOff::l) L.flags
  | disableBlock {k : κ} {wrote : List κ} {l : List (Frame κ)} {L : Level} (h : Save l true)
      (hL : L≠.off) : Fits (.disable (.block k) wrote::.setPreemption .exchangeOff::l) L.flags
  | disableSet {k : κ} {wrote : List κ} {l : List (Frame κ)} (h : Save l true) :
      Fits (.disable (.set k) wrote::.setPreemption .exchangeOff::l) Level.sig.flags
  | enableLoad {l : List (Frame κ)} {b : Bool} (h : Fits l Level.on.flags) :
      Fits (.enable .load::.setPreemption .done::l) ⟨true,true,b⟩
  | enableTest {k : κ} {l : List (Frame κ)} {b : Bool} (h : Fits l Level.on.flags) :
      Fits (.enable (.test k)::.setPreemption .done::l) ⟨true,true,b⟩
  | enableClear {k : κ} {l : List (Frame κ)} {b : Bool} (h : Fits l Level.on.flags) :
      Fits (.enable (.clear k)::.setPreemption .done::l) ⟨true,true,b⟩
  | enableUnblock {l : List (Frame κ)} {b : Bool} (h : Fits l Level.on.flags) :
      Fits (.enable .unblock::.setPreemption .done::l) ⟨true,false,b⟩
  | enableDispatch {l : List (Frame κ)} (h : Fits l Level.on.flags) :
      Fits (.enable .dispatch::.setPreemption .done::l) Level.on.flags
  | enableRet {l : List (Frame κ)} (h : Fits l Level.on.flags) :
      Fits (.enable .ret::.setPreemption .done::l) Level.on.flags
  /-- The mask of the interrupted call comes back with the return of the handler. -/
  | signalEnter {k : κ} {o : Bool} {l : List (Frame κ)} {p d : Bool} (h : Fits l ⟨p,d,false⟩) :
      Fits (.sigusr1 k o .enter::l) ⟨p,d,true⟩
  | signalRet {k : κ} {o : Bool} {l : List (Frame κ)} {p d b : Bool} (h : Fits l ⟨p,d,false⟩) :
      Fits (.sigusr1 k o .ret::l) ⟨p,d,b⟩
  | haltOn {pc : HaltPc κ} (h : pc = .start ∨ (∃ k, pc = .block k) ∨ (∃ k, pc = .dispatch k) ∨
      pc = .ret) :
      Fits [.halt pc, .body] Level.on.flags
  | haltBlocked {pc : HaltPc κ} (h : ∃ k, pc = .park k ∨ pc = .parked k ∨ pc = .unblock k) :
      Fits [.halt pc, .body] Level.sig.flags

inductive Save : List (Frame κ) → Bool → Prop where
  | yield {l : List (Frame κ)} {L : Level} (h : Base l L) : Save (.yield L.pre .save::l) L.pre
  | bracket {f : Bracket} {l : List (Frame κ)} {L : Level} (h : Base l L)
      (hf : f = .serialRead → L = .on) : Save (.bracket f L.pre .save::l) L.pre

/-- Code at this level, from which functions of the kernel are called. -/
inductive Base : List (Frame κ) → Level → Prop where
  | body : Base [.body] .on
  | plain {f : Plain} {l : List (Frame κ)} {L : Level} (h : Base l L) (hL : L≠.sig) :
      Base (.plain f L.pre::l) L
  | inside {f : Bracket} {l : List (Frame κ)} {L : Level} (h : Base l L)
      (hf : f = .serialRead → L = .on) : Base (.bracket f L.pre (.inside L.pre)::l) .off
  | dispatchSignal {k k' : κ} {is : List Interrupt} {pc : DispatchPc} {o : Bool}
      {l : List (Frame κ)}
      {L : Level} (h : Fits l Level.on.flags) (hL : L≠.off) :
      Base (.dispatch k is pc::.sigusr1 k' o .ret::l) L
  | dispatchEnable {k : κ} {is : List Interrupt} {pc : DispatchPc} {l : List (Frame κ)}
      (h : Fits l Level.on.flags) :
      Base (.dispatch k is pc::.enable .ret::.setPreemption .done::l) .on
  | dispatchHalt {k : κ} {is : List Interrupt} {pc : DispatchPc} :
      Base [.dispatch k is pc, .halt .ret, .body] .on

end

theorem Base.back {l : List (Frame κ)} {L : Level} (h : Base l L) : Base l L.back := by
  cases h with
  | body => exact .body
  | plain h hL => rw [Level.back_of_ne hL]; exact .plain h hL
  | inside h hf => exact .inside h hf
  | dispatchSignal h hL => cases L <;> first | exact .dispatchSignal h (by decide) | exact absurd rfl hL
  | dispatchEnable h => exact .dispatchEnable h
  | dispatchHalt => exact .dispatchHalt

theorem Base.dispatch {k k' : κ} {is is' : List Interrupt} {pc pc' : DispatchPc}
    {l : List (Frame κ)}
    {L : Level} (h : Base (.dispatch k is pc::l) L) : Base (.dispatch k' is' pc'::l) L := by
  cases h with
  | dispatchSignal h hL => exact .dispatchSignal h hL
  | dispatchEnable h => exact .dispatchEnable h
  | dispatchHalt => exact .dispatchHalt

theorem Base.loop_end {k : κ} {is : List Interrupt} {pc : DispatchPc} {l : List (Frame κ)}
    {L : Level} (h : Base (.dispatch k is pc::l) L) : Fits l L.flags ∧ L≠.off := by
  cases h with
  | dispatchSignal h hL =>
    cases L with
    | on => exact ⟨.signalRet h,hL⟩
    | sig => exact ⟨.signalRet h,hL⟩
    | off => exact absurd rfl hL
  | dispatchEnable h => exact ⟨.enableRet h,by decide⟩
  | dispatchHalt => exact ⟨.haltOn (by simp),by decide⟩

theorem Save.result {l : List (Frame κ)} {p : Bool} (h : Save l p) :
    Fits (saveResult p l) Level.off.flags := by
  cases h with
  | yield h => exact .yieldSwitch h
  | bracket h hf => exact .base (.inside h hf)

theorem Fits.preemption {l : List (Frame κ)} {F : Flags} (h : Fits l F)
    (hd : F.intDisabled = false) :
    F.preemption = true :=
  match l, F, h with
  | _, _, .base (L := L) _ | _, _, .yieldCancel (L := L) _ | _, _, .yieldOff (L := L) _
  | _, _, .bracketOff (L := L) _ _ | _, _, .preemptOff (L := L) _ | _, _, .disableLoad (L := L) _
  | _, _, .disableTest (L := L) _ | _, _, .disableBlock (L := L) _ _ => by
    cases L <;> simp_all [Level.flags]
  | _, _, .yieldRet (L := L) _ | _, _, .bracketRet (L := L) _ => by
    cases L <;> simp_all [Level.flags, Level.back]
  | _, _, @Fits.gainTimer _ b _ _ | _, _, @Fits.gainRet _ b _ _ => by
    cases b <;> simp_all [Level.flags, Level.after]
  | _, _, .setTimer h => h.preemption hd
  | _, _, .signalEnter h | _, _, .signalRet h => h.preemption hd
  | _, _, .yieldSwitch _ | _, _, .gainPreempt _ _ | _, _, .exchangeOff _ | _, _, .exchangeOn _
  | _, _, .preemptOn _ | _, _, .enableLoad _ | _, _, .enableTest _ | _, _, .enableClear _ => by
    cases hd
  | _, _, .preemptDone _ | _, _, .disableSet _ | _, _, .enableUnblock _ | _, _, .enableDispatch _
  | _, _, .enableRet _ | _, _, .haltOn _ | _, _, .haltBlocked _ => rfl
termination_by structural h

def Frame.disables : Frame κ → Option κ
  | .disable (.test k) _ | .disable (.block k) _ | .disable (.set k) _ => some k
  | _ => none

def Frame.relies : Frame κ → Option κ
  | .enable (.test k) | .enable (.clear k) | .sigusr1 k _ .enter => some k
  | _ => none

mutual

theorem Fits.relies_none {l : List (Frame κ)} {F : Flags} (h : Fits l F) (hF : F = Level.on.flags) :
    ∀ f∈l, f.relies = none :=
  match l, F, h with
  | _, _, .base h => Base.relies_none h
  | _, _, .yieldCancel h | _, _, .yieldOff h | _, _, .yieldSwitch h | _, _, .yieldRet h
  | _, _, .bracketOff h _ | _, _, .bracketRet h =>
    List.forall_mem_cons.mpr ⟨rfl,Base.relies_none h⟩
  | _, _, .gainTimer h | _, _, .gainRet h | _, _, .setTimer h =>
    List.forall_mem_cons.mpr ⟨rfl,Fits.relies_none h hF⟩
  | _, _, .preemptOff h => List.forall_mem_cons.mpr ⟨rfl,Save.relies_none h⟩
  | _, _, .preemptDone h => List.forall_mem_cons.mpr ⟨rfl,Fits.relies_none h rfl⟩
  | _, _, .disableLoad h | _, _, .disableTest h | _, _, .disableBlock h _ | _, _, .disableSet h =>
    List.forall_mem_cons.mpr ⟨rfl,List.forall_mem_cons.mpr ⟨rfl,Save.relies_none h⟩⟩
  | _, _, .enableUnblock h | _, _, .enableDispatch h | _, _, .enableRet h =>
    List.forall_mem_cons.mpr ⟨rfl,List.forall_mem_cons.mpr ⟨rfl,Fits.relies_none h rfl⟩⟩
  | _, _, .signalRet (p := p) (d := d) h =>
    have hpd : p = true ∧ d = false := by
      simpa [Level.flags] using ⟨congrArg Flags.preemption hF,congrArg Flags.intDisabled hF⟩
    List.forall_mem_cons.mpr ⟨rfl,Fits.relies_none h (by rw [hpd.1, hpd.2]; rfl)⟩
  | _, _, .haltOn _ | _, _, .haltBlocked _ => by simp [Frame.relies]
  | _, _, .gainPreempt _ _ | _, _, .exchangeOff _ | _, _, .exchangeOn _ | _, _, .preemptOn _
  | _, _, .enableLoad _ | _, _, .enableTest _ | _, _, .enableClear _ | _, _, .signalEnter _ => by
    simp [Level.flags] at hF
termination_by structural h

theorem Save.relies_none {l : List (Frame κ)} {p : Bool} (h : Save l p) : ∀ f∈l, f.relies = none :=
  match l, p, h with
  | _, _, .yield h | _, _, .bracket h _ => List.forall_mem_cons.mpr ⟨rfl,Base.relies_none h⟩
termination_by structural h

theorem Base.relies_none {l : List (Frame κ)} {L : Level} (h : Base l L) : ∀ f∈l, f.relies = none :=
  match l, L, h with
  | _, _, .body => by simp [Frame.relies]
  | _, _, .plain h _ | _, _, .inside h _ => List.forall_mem_cons.mpr ⟨rfl,Base.relies_none h⟩
  | _, _, .dispatchSignal h _ =>
    List.forall_mem_cons.mpr ⟨rfl,List.forall_mem_cons.mpr ⟨rfl,Fits.relies_none h rfl⟩⟩
  | _, _, .dispatchEnable h => List.forall_mem_cons.mpr ⟨rfl,List.forall_mem_cons.mpr ⟨rfl,
      List.forall_mem_cons.mpr ⟨rfl,Fits.relies_none h rfl⟩⟩⟩
  | _, _, .dispatchHalt => by simp [Frame.relies]
termination_by structural h

end

mutual

theorem Fits.unblocked {l : List (Frame κ)} {F : Flags} (h : Fits l F) : Fits (unblocked l) F :=
  match l, F, h with
  | _, _, .base h => .base (Base.unblocked h)
  | _, _, .yieldCancel h => .yieldCancel (Base.unblocked h)
  | _, _, .yieldOff h => .yieldOff (Base.unblocked h)
  | _, _, .yieldSwitch h => .yieldSwitch (Base.unblocked h)
  | _, _, .yieldRet h => .yieldRet (Base.unblocked h)
  | _, _, .bracketOff h hf => .bracketOff (Base.unblocked h) hf
  | _, _, .bracketRet h => .bracketRet (Base.unblocked h)
  | _, _, .gainPreempt h hb => .gainPreempt (Fits.unblocked h) hb
  | _, _, .gainTimer h => .gainTimer (Fits.unblocked h)
  | _, _, .gainRet h => .gainRet (Fits.unblocked h)
  | _, _, .setTimer h => .setTimer (Fits.unblocked h)
  | _, _, .preemptOff h => .preemptOff (Save.unblocked h)
  | _, _, .exchangeOff h => .exchangeOff (Save.unblocked h)
  | _, _, .exchangeOn h => .exchangeOn (Fits.unblocked h)
  | _, _, .preemptOn h => .preemptOn (Fits.unblocked h)
  | _, _, .preemptDone h => .preemptDone (Fits.unblocked h)
  | _, _, .disableLoad h => .disableLoad (Save.unblocked h)
  | _, _, .disableTest h => .disableTest (Save.unblocked h)
  | _, _, .disableBlock h hL => .disableBlock (Save.unblocked h) hL
  | _, _, .disableSet h => .disableSet (Save.unblocked h)
  | _, _, .enableLoad h => .enableLoad (Fits.unblocked h)
  | _, _, .enableTest h => .enableTest (Fits.unblocked h)
  | _, _, .enableClear h => .enableClear (Fits.unblocked h)
  | _, _, .enableUnblock h => .enableUnblock (Fits.unblocked h)
  | _, _, .enableDispatch h => .enableDispatch (Fits.unblocked h)
  | _, _, .enableRet h => .enableRet (Fits.unblocked h)
  | _, _, .signalEnter h => .signalEnter (Fits.unblocked h)
  | _, _, .signalRet h => .signalRet (Fits.unblocked h)
  | _, _, .haltOn h => .haltOn h
  | _, _, .haltBlocked h => .haltBlocked h
termination_by structural h

theorem Save.unblocked {l : List (Frame κ)} {p : Bool} (h : Save l p) : Save (unblocked l) p :=
  match l, p, h with
  | _, _, .yield h => .yield (Base.unblocked h)
  | _, _, .bracket h hf => .bracket (Base.unblocked h) hf
termination_by structural h

theorem Base.unblocked {l : List (Frame κ)} {L : Level} (h : Base l L) : Base (unblocked l) L :=
  match l, L, h with
  | _, _, .body => .body
  | _, _, .plain h hL => .plain (Base.unblocked h) hL
  | _, _, .inside h hf => .inside (Base.unblocked h) hf
  | _, _, .dispatchSignal h hL => .dispatchSignal (Fits.unblocked h) hL
  | _, _, .dispatchEnable h => .dispatchEnable (Fits.unblocked h)
  | _, _, .dispatchHalt => .dispatchHalt
termination_by structural h

end

/-- A context that is switched out, in yield or before it has run, with its mask. -/
inductive Out : List (Frame κ) → Bool → Prop where
  | yield {l : List (Frame κ)} {L : Level} (h : Base l L) :
      Out (.gain L.pre .preempt::.yield L.pre .ret::l) true
  | new {b : Bool} : Out [.gain true .preempt, .body] b

theorem Out.fits {l : List (Frame κ)} {b : Bool} (h : Out l b) : Fits l ⟨false,true,b⟩ := by
  cases h with
  | yield h =>
    refine .gainPreempt ?_ fun _ => rfl
    rw [Level.after_pre]
    exact .yieldRet h
  | new => exact .gainPreempt (.base .body) (by simp)

theorem Out.relies_none {l : List (Frame κ)} {b : Bool} (h : Out l b) : ∀ f∈l, f.relies = none := by
  cases h with
  | yield h => simpa [Frame.relies] using h.relies_none
  | new => simp [Frame.relies]

end TinyOS.Bios
