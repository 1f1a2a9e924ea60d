import Mathlib.Data.List.FinRange
import TinyOS.Lib.Transition
import TinyOS.Util.RList

/-! The list of halted cores of bios.c under core_halt_mutex, with one step for each
statement of cpu_core_halt and of the three functions that restart cores. -/
namespace TinyOS.Bios.HaltedList
open Transition RList

/-- What core_halt_mutex protects. The node of halted_list is none, and the halted_node of
core c is some c; the key of a node is its obj, which is NULL for the list itself. -/
structure Mem (n : Nat) where
  heap : Heap (Option (Fin n)) (Option (Fin n))
  halted : Fin n → Bool

inductive CorePc where
  | out
  /-- SIGUSR1 is blocked; at pthread_mutex_lock. -/
  | lock
  | set
  | push
  /-- while(core->halted) -/
  | test
  /-- In pthread_cond_wait, asleep. -/
  | waiting
  /-- In pthread_cond_wait, woken. -/
  | relock
  /-- assert(! core->halted) -/
  | check
  | unlock
  deriving DecidableEq

inductive Call (n : Nat) where
  | restart (c : Fin n)
  | restartOne
  | restartAll
  deriving DecidableEq

inductive Pc (n : Nat) where
  | idle
  | lock
  /-- The statements of core_restart. -/
  | test (c : Fin n) (cs : List (Fin n))
  | clear (c : Fin n) (cs : List (Fin n))
  | remove (c : Fin n) (cs : List (Fin n))
  | signal (c : Fin n) (cs : List (Fin n))
  /-- if(! is_rlist_empty(&halted_list)) -/
  | empty
  | pop
  | unlock
  /-- core_restart of NULL. -/
  | fault
  deriving DecidableEq

structure Activation (n : Nat) where
  call : Call n
  pc : Pc n
  /-- For the proofs: memory when the call took the mutex. -/
  taken : Mem n

/-- Calls of the restart functions come from anywhere, also several from one core. -/
structure State (n : Nat) (ρ : Type*) where
  mem : Mem n
  owner : Option (Fin n ⊕ ρ)
  core : Fin n → CorePc
  call : ρ → Activation n

section
variable {n : Nat} {ρ : Type*}

def Mem.set (m : Mem n) (c : Fin n) (x : Bool) : Mem n :=
  { m with halted := Function.update m.halted c x }

def Mem.push (m : Mem n) (c : Fin n) : Mem n :=
  { m with heap := rlistPushFront m.heap none (some c) }

def Mem.remove (m : Mem n) (c : Fin n) : Mem n :=
  { m with heap := rlistRemove m.heap (some c) }

def Mem.pop (m : Mem n) : Mem n × Option (Fin n) :=
  ({ m with heap := (rlistPopFront m.heap none).1 },(rlistPopFront m.heap none).2)

def State.coreTo (s : State n ρ) (c : Fin n) (p : CorePc) : State n ρ :=
  { s with core := Function.update s.core c p }

def State.wake (s : State n ρ) (c : Fin n) : State n ρ :=
  match s.core c with
  | .waiting => s.coreTo c .relock
  | _ => s

def State.runCore (s : State n ρ) (c : Fin n) : CorePc → Option (State n ρ)
  | .out => some (s.coreTo c .lock)
  | .lock =>
    if s.owner.isNone then some ({ s with owner := some (.inl c) }.coreTo c .set) else none
  | .set => some ({ s with mem := s.mem.set c true }.coreTo c .push)
  | .push => some ({ s with mem := s.mem.push c }.coreTo c .test)
  | .test =>
    if s.mem.halted c then some ({ s with owner := none }.coreTo c .waiting)
    else some (s.coreTo c .check)
  | .waiting => none
  | .relock =>
    if s.owner.isNone then some ({ s with owner := some (.inl c) }.coreTo c .test) else none
  | .check => if s.mem.halted c then none else some (s.coreTo c .unlock)
  | .unlock => some ({ s with owner := none }.coreTo c .out)

/-- The loop of cpu_core_restart_all; the other two calls restart one core at most. -/
def Pc.after : List (Fin n) → Pc n
  | [] => .unlock
  | c::cs => .test c cs

def Call.entry : Call n → Pc n
  | .restart c => .test c []
  | .restartOne => .empty
  | .restartAll => .after (List.finRange n)

variable [DecidableEq ρ]

def State.callTo (s : State n ρ) (r : ρ) (p : Pc n) : State n ρ :=
  { s with call := Function.update s.call r { s.call r with pc := p } }

def State.begin (s : State n ρ) (r : ρ) (k : Call n) : State n ρ :=
  { s with call := Function.update s.call r { s.call r with call := k, pc := .lock } }

def State.take (s : State n ρ) (r : ρ) : State n ρ :=
  { s with
    owner := some (.inr r)
    call := Function.update s.call r
      { s.call r with pc := (s.call r).call.entry, taken := s.mem } }

def State.runCall (s : State n ρ) (r : ρ) : Pc n → Option (State n ρ)
  | .idle => none
  | .lock => if s.owner.isNone then some (s.take r) else none
  | .test c cs =>
    if s.mem.halted c then some (s.callTo r (.clear c cs)) else some (s.callTo r (.after cs))
  | .clear c cs => some ({ s with mem := s.mem.set c false }.callTo r (.remove c cs))
  | .remove c cs => some ({ s with mem := s.mem.remove c }.callTo r (.signal c cs))
  | .signal c cs => some ((s.wake c).callTo r (.after cs))
  | .empty =>
    if isRlistEmpty s.mem.heap none then some (s.callTo r .unlock) else some (s.callTo r .pop)
  | .pop =>
    match s.mem.pop.1.heap.key s.mem.pop.2 with
    | some c => some ({ s with mem := s.mem.pop.1 }.callTo r (.test c []))
    | none => some ({ s with mem := s.mem.pop.1 }.callTo r .fault)
  | .unlock => some ({ s with owner := none }.callTo r .idle)
  | .fault => none

inductive Label (n : Nat) (ρ : Type*) where
  | halt (c : Fin n)
  | spurious (c : Fin n)
  | begin (r : ρ) (k : Call n)
  | run (r : ρ)
  deriving DecidableEq

def State.exec (s : State n ρ) : Label n ρ → Option (State n ρ)
  | .halt c => s.runCore c (s.core c)
  | .spurious c => some (s.wake c)
  | .begin r k => if (s.call r).pc = .idle then some (s.begin r k) else none
  | .run r => s.runCall r (s.call r).pc

def bootMem (n : Nat) : Mem n where
  heap := ⟨id,id,id⟩
  halted _ := false

def boot (n : Nat) (ρ : Type*) : State n ρ where
  mem := bootMem n
  owner := none
  core _ := .out
  call _ := ⟨.restartAll,.idle,bootMem n⟩

def system (n : Nat) (ρ : Type*) [DecidableEq ρ] : System (State n ρ) (Label n ρ) where
  init s := s = boot n ρ
  next := State.exec

end

/-! What the statements do to the list. -/

section
variable {n : Nat} {m : Mem n} {c : Fin n}

def Mem.Listed (m : Mem n) : Prop :=
  ∃ l, Represents m.heap (fun _ : Unit => none) (fun _ => l) ∧
    ∀ x, some x∈l ↔ m.halted x = true

def Mem.ListedBut (m : Mem n) (c : Fin n) : Prop :=
  ∃ l, Represents m.heap (fun _ : Unit => none) (fun _ => l) ∧
    ∀ x, x≠c → (some x∈l ↔ m.halted x = true)

theorem Mem.Listed.but (h : m.Listed) (c : Fin n) : m.ListedBut c := by
  obtain ⟨l,hl,hm⟩ := h
  exact ⟨l,hl,fun x _ => hm x⟩

theorem Mem.ListedBut.set (h : m.ListedBut c) (b : Bool) : (m.set c b).ListedBut c := by
  obtain ⟨l,hl,hm⟩ := h
  refine ⟨l,hl,fun x hx => ?_⟩
  simp only [Mem.set, Function.update_of_ne hx]
  exact hm x hx

theorem Mem.Listed.push (h : m.Listed) (hc : m.halted c = false) :
    ((m.set c true).push c).Listed := by
  obtain ⟨l,hl,hm⟩ := h
  have hcl : some c∉l := by simp [hm, hc]
  have hp := hl.rlistPushFront (i := ()) (x := some c) (fun _ => nofun) fun _ => hcl
  rw [Ring.update_unit] at hp
  refine ⟨some c::l,hp,fun x => ?_⟩
  · by_cases hx : x = c
    · simp [Mem.push, Mem.set, hx]
    · simp [Mem.push, Mem.set, hx, hm]

theorem Mem.ListedBut.remove (h : m.ListedBut c) (hc : m.halted c = false) :
    (m.remove c).Listed := by
  obtain ⟨l,hl,hm⟩ := h
  by_cases hcl : some c∈l
  · have hr := hl.rlistRemove (i := ()) hcl
    rw [Ring.update_unit] at hr
    refine ⟨_,hr,fun x => ?_⟩
    rw [@List.Nodup.mem_erase_iff _ instBEqOfDecidableEq _ _ _ _ (hl.lists.nodup ())]
    by_cases hx : x = c
    · simp [Mem.remove, hx, hc]
    · simp [Mem.remove, hx, hm]
  · have hr := hl.rlistRemove_single (x := some c) (fun _ => nofun) fun _ => hcl
    refine ⟨l,?_,fun x => ?_⟩
    · rw [Mem.remove, hr]
      exact hl
    · by_cases hx : x = c
      · simp [Mem.remove, hx, hc, hcl]
      · simp [Mem.remove, hm x hx]

theorem Mem.Listed.empty_iff (h : m.Listed) :
    isRlistEmpty m.heap none = true ↔ ∀ c, m.halted c = false := by
  obtain ⟨l,hl,hm⟩ := h
  have hi := hl.isRlistEmpty_iff (i := ())
  rw [hi]
  constructor
  · intro he c
    have hc := hm c
    simp only [show l = [] from he, List.not_mem_nil, false_iff] at hc
    simpa using hc
  · intro hh
    apply List.eq_nil_iff_forall_not_mem.mpr
    intro x hx
    cases x with
    | none => exact hl.lists.headNotMem () () hx
    | some c => exact absurd ((hm c).mp hx) (by simp [hh c])

theorem Mem.Listed.pop (h : m.Listed) (he : isRlistEmpty m.heap none = false) :
    ∃ c, m.pop.2 = some c ∧ m.halted c = true ∧ m.pop.1.ListedBut c := by
  obtain ⟨l,hl,hm⟩ := h
  have hi := hl.isRlistEmpty_iff (i := ())
  cases l with
  | nil =>
    rw [hi.mpr rfl] at he
    cases he
  | cons x l =>
    cases x with
    | none => exact absurd List.mem_cons_self (hl.lists.headNotMem () ())
    | some c =>
      obtain ⟨hx,hr⟩ := hl.rlistPopFront_cons (i := ()) rfl
      have hcl : some c∉l := (List.nodup_cons.mp (hl.lists.nodup ())).1
      rw [Ring.update_unit] at hr
      refine ⟨c,hx,(hm c).mp List.mem_cons_self,l,hr,fun x hxc => ?_⟩
      have hmx := hm x
      simpa [Mem.pop, hxc] using hmx

theorem Mem.set_self (hc : m.halted c = false) : m.set c false = m := by
  rw [Mem.set, ← hc, Function.update_eq_self]

theorem Mem.set_false {x : Fin n} (hx : m.halted x = false) : (m.set c false).halted x = false := by
  by_cases hxc : x = c
  · simp [Mem.set, hxc]
  · simpa [Mem.set, hxc] using hx

end

/-! What is known at each statement. -/

section
variable {n : Nat} {ρ : Type*}

def CorePc.inside : CorePc → Bool
  | .out | .lock | .waiting | .relock => false
  | _ => true

def Pc.inside : Pc n → Bool
  | .idle | .lock => false
  | _ => true

def CorePc.Ok (m : Mem n) (c : Fin n) : CorePc → Prop
  | .out | .lock => m.halted c = false
  | .set | .check | .unlock => m.Listed ∧ m.halted c = false
  | .push => ∃ m' : Mem n, m'.Listed ∧ m'.halted c = false ∧ m = m'.set c true
  | .test => m.Listed
  | .waiting | .relock => True

def Call.Done (t m : Mem n) (cs : List (Fin n)) : Call n → Prop
  | .restart c => cs = [] ∧ m.halted = Function.update t.halted c false
  | .restartOne => cs = [] ∧
      ∃ c, t.halted c = true ∧ m.halted = Function.update t.halted c false
  | .restartAll => ∀ c∉cs, m.halted c = false

/-- In front of core_restart(c), c may have been popped; then it is halted. -/
def Pc.Ok (k : Call n) (t m : Mem n) : Pc n → Prop
  | .idle | .lock => True
  | .test c cs => (m.halted c = true ∧ m.ListedBut c ∨ m.Listed) ∧ k.Done t (m.set c false) cs
  | .clear c cs => m.ListedBut c ∧ k.Done t (m.set c false) cs
  | .remove c cs => m.ListedBut c ∧ m.halted c = false ∧ k.Done t m cs
  | .signal _ cs => m.Listed ∧ k.Done t m cs
  | .unlock => m.Listed ∧
      (k.Done t m [] ∨ k = .restartOne ∧ (∀ c, t.halted c = false) ∧ m = t)
  | .empty => m.Listed ∧ k = .restartOne ∧ m = t
  | .pop => m.Listed ∧ k = .restartOne ∧ m = t ∧ isRlistEmpty m.heap none = false
  | .fault => False

def State.inside (s : State n ρ) : Fin n ⊕ ρ → Bool
  | .inl c => (s.core c).inside
  | .inr r => (s.call r).pc.inside

def State.Ok (s : State n ρ) (m : Mem n) : Fin n ⊕ ρ → Prop
  | .inl c => (s.core c).Ok m c
  | .inr r => (s.call r).pc.Ok (s.call r).call (s.call r).taken m

structure Inv (s : State n ρ) : Prop where
  mutex : ∀ a, s.owner = some a ↔ s.inside a = true
  ok : ∀ a, s.Ok s.mem a
  free : s.owner = none → s.mem.Listed
  key : ∀ c, s.mem.heap.key (some c) = some c

theorem Call.Done.next {k : Call n} {t m : Mem n} {c : Fin n} {cs : List (Fin n)}
    (h : k.Done t m (c::cs)) : k.Done t (m.set c false) cs := by
  cases k with
  | restart d => cases h.1
  | restartOne => cases h.1
  | restartAll =>
    intro x hx
    by_cases hxc : x = c
    · simp [Mem.set, hxc]
    · have hm := h x (by simp [hxc, hx])
      simpa [Mem.set, hxc] using hm

theorem Pc.Ok.after {k : Call n} {t m : Mem n} {cs : List (Fin n)} (hl : m.Listed)
    (hd : k.Done t m cs) : (Pc.after cs).Ok k t m := by
  cases cs with
  | nil => exact ⟨hl,.inl hd⟩
  | cons c cs => exact ⟨.inr hl,hd.next⟩

theorem Pc.Ok.entry {t : Mem n} (hl : t.Listed) (k : Call n) : k.entry.Ok k t t := by
  cases k with
  | restart c => exact ⟨.inr hl,rfl,rfl⟩
  | restartOne => exact ⟨hl,rfl,rfl⟩
  | restartAll => exact Pc.Ok.after hl fun c hc => absurd (List.mem_finRange c) hc

theorem Pc.after_inside (cs : List (Fin n)) : (Pc.after cs).inside = true := by
  cases cs with
  | nil => rfl
  | cons c cs => rfl

theorem Call.entry_inside (k : Call n) : k.entry.inside = true := by
  cases k with
  | restart c => rfl
  | restartOne => rfl
  | restartAll => exact Pc.after_inside _

variable {s s' : State n ρ}

theorem Inv.outside (h : Inv s) {a b : Fin n ⊕ ρ} (ha : s.owner = none ∨ s.owner = some a)
    (hb : b≠a) : s.inside b = false := by
  have hm := h.mutex b
  cases ha with
  | inl ho => simpa [ho] using hm
  | inr ho => simpa [ho, hb.symm] using hm

theorem State.Ok.outside {m m' : Mem n} {b : Fin n ⊕ ρ} (hb : s.inside b = false)
    (h : s.Ok m b) (hm : ∀ c, b = .inl c → m.halted c = false → m'.halted c = false) :
    s.Ok m' b := by
  cases b with
  | inl c =>
    simp only [State.inside, State.Ok] at hb h ⊢
    cases hc : s.core c with
    | out =>
      rw [hc] at h
      exact hm c rfl h
    | lock =>
      rw [hc] at h
      exact hm c rfl h
    | waiting => trivial
    | relock => trivial
    | _ => simp [hc, CorePc.inside] at hb
  | inr r =>
    simp only [State.inside, State.Ok] at hb h ⊢
    cases hr : (s.call r).pc with
    | idle => trivial
    | lock => trivial
    | _ => simp [hr, Pc.inside] at hb

theorem Inv.holder (h : Inv s) {a : Fin n ⊕ ρ} (ho : s.owner = none ∨ s.owner = some a)
    (hoth : ∀ b≠a, s'.inside b = s.inside b ∧ ∀ m, s.Ok m b → s'.Ok m b)
    (hm : ∀ c, a≠.inl c → s.mem.halted c = false → s'.mem.halted c = false)
    (ho' : s'.owner = if s'.inside a then some a else none) (ha : s'.Ok s'.mem a)
    (hfree : s'.inside a = false → s'.mem.Listed) (hkey : s'.mem.heap.key = s.mem.heap.key) :
    Inv s' := by
  have hout : ∀ b≠a, s.inside b = false := fun b hb => h.outside ho hb
  refine ⟨fun b => ?_,fun b => ?_,fun hn => ?_,fun c => hkey ▸ h.key c⟩
  · by_cases hb : b = a
    · subst hb
      rw [ho']
      cases hi : s'.inside b with
      | false => simp
      | true => simp
    · rw [(hoth b hb).1, hout b hb, ho']
      cases hi : s'.inside a with
      | false => simp
      | true => simpa using Ne.symm hb
  · by_cases hb : b = a
    · exact hb ▸ ha
    · refine (hoth b hb).2 _ ((h.ok b).outside (hout b hb) fun c hc => hm c ?_)
      exact fun he => hb (hc.trans he.symm)
  · cases hi : s'.inside a with
    | false => exact hfree hi
    | true => simp [ho', hi] at hn

theorem Inv.quiet (h : Inv s) {a : Fin n ⊕ ρ}
    (hoth : ∀ b≠a, s'.inside b = s.inside b ∧ ∀ m, s.Ok m b → s'.Ok m b)
    (hin : s'.inside a = s.inside a) (ha : s'.Ok s.mem a) (hmem : s'.mem = s.mem)
    (ho : s'.owner = s.owner) : Inv s' := by
  refine ⟨fun b => ?_,fun b => ?_,fun hn => ?_,fun c => ?_⟩
  · by_cases hb : b = a
    · rw [ho, hb, hin]
      exact h.mutex a
    · rw [ho, (hoth b hb).1]
      exact h.mutex b
  · rw [hmem]
    by_cases hb : b = a
    · exact hb ▸ ha
    · exact (hoth b hb).2 _ (h.ok b)
  · rw [hmem]
    exact h.free (ho ▸ hn)
  · rw [hmem]
    exact h.key c

/-! The steps of the cores. -/

theorem State.others_core (s : State n ρ) (m : Mem n) (o : Option (Fin n ⊕ ρ)) {c : Fin n}
    (p : CorePc) {b : Fin n ⊕ ρ} (hb : b≠.inl c) :
    ({ s with mem := m, owner := o }.coreTo c p).inside b = s.inside b ∧
      ∀ m', s.Ok m' b → ({ s with mem := m, owner := o }.coreTo c p).Ok m' b := by
  cases b with
  | inl x =>
    have hx : x≠c := fun he => hb (he ▸ rfl)
    simp only [State.inside, State.Ok, State.coreTo, Function.update_of_ne hx]
    exact ⟨trivial,fun _ h => h⟩
  | inr r => exact ⟨rfl,fun _ h => h⟩

theorem Inv.core (h : Inv s) {c : Fin n} {p : CorePc} {m : Mem n} {o : Option (Fin n ⊕ ρ)}
    (ho : s.owner = none ∨ s.owner = some (.inl c))
    (hm : ∀ x, x≠c → s.mem.halted x = false → m.halted x = false)
    (ho' : o = if p.inside then some (.inl c) else none) (hp : p.Ok m c)
    (hfree : p.inside = false → m.Listed) (hkey : m.heap.key = s.mem.heap.key) :
    Inv ({ s with mem := m, owner := o }.coreTo c p) := by
  have hin : ({ s with mem := m, owner := o }.coreTo c p).inside (.inl c) = p.inside := by
    simp [State.inside, State.coreTo]
  refine h.holder ho (fun b hb => s.others_core m o p hb)
    (fun x hx => hm x fun he => hx (he ▸ rfl)) ?_ ?_ ?_ hkey
  · rw [hin]
    exact ho'
  · simpa [State.Ok, State.coreTo] using hp
  · rw [hin]
    exact hfree

theorem Inv.coreOk (h : Inv s) {c : Fin n} {p : CorePc} (hc : s.core c = p) : p.Ok s.mem c :=
  hc ▸ h.ok (.inl c)

theorem Inv.coreOwner (h : Inv s) {c : Fin n} {p : CorePc} (hc : s.core c = p)
    (hp : p.inside = true) : s.owner = some (.inl c) :=
  (h.mutex (.inl c)).mpr (by rw [State.inside, hc, hp])

theorem Inv.coreQuiet (h : Inv s) {c : Fin n} {p : CorePc} (hc : (s.core c).inside = false)
    (hp : p.inside = false) (hok : p.Ok s.mem c) : Inv (s.coreTo c p) := by
  refine h.quiet (a := .inl c) (fun b hb => s.others_core s.mem s.owner p hb) ?_ ?_ rfl rfl
  · simp [State.inside, State.coreTo, hc, hp]
  · simpa [State.Ok, State.coreTo] using hok

theorem State.wake_same (s : State n ρ) (c : Fin n) :
    (s.wake c).mem = s.mem ∧ (s.wake c).owner = s.owner ∧ (s.wake c).call = s.call := by
  unfold State.wake
  split
  · exact ⟨rfl,rfl,rfl⟩
  · exact ⟨rfl,rfl,rfl⟩

theorem Inv.wake (h : Inv s) (c : Fin n) : Inv (s.wake c) := by
  unfold State.wake
  split
  · exact h.coreQuiet (by simp [*, CorePc.inside]) rfl trivial
  · exact h

theorem Inv.runCore (h : Inv s) {c : Fin n} (hs : s.runCore c (s.core c) = some s') :
    Inv s' := by
  cases hc : s.core c with
  | out =>
    rw [hc] at hs
    cases hs
    have hf : s.mem.halted c = false := h.coreOk (p := .out) hc
    exact h.coreQuiet (by rw [hc]; rfl) rfl hf
  | lock =>
    simp only [hc, State.runCore, Option.ite_none_right_eq_some, Option.isNone_iff_eq_none] at hs
    obtain ⟨ho,hs⟩ := hs
    cases hs
    exact h.core (m := s.mem) (.inl ho) (fun _ _ hx => hx) rfl
      ⟨h.free ho,h.coreOk (p := .lock) hc⟩ nofun rfl
  | set =>
    rw [hc] at hs
    cases hs
    have hok : s.mem.Listed ∧ s.mem.halted c = false := h.coreOk hc
    have ho := h.coreOwner hc rfl
    refine h.core (.inr ho) (fun x hx hf => ?_) ho ⟨s.mem,hok.1,hok.2,rfl⟩ nofun rfl
    simpa [Mem.set, hx] using hf
  | push =>
    rw [hc] at hs
    cases hs
    obtain ⟨m',hl,hf,hm⟩ : ∃ m' : Mem n, m'.Listed ∧ m'.halted c = false ∧ s.mem = m'.set c true :=
      h.coreOk hc
    have ho := h.coreOwner hc rfl
    refine h.core (.inr ho) (fun _ _ hx => hx) ho ?_ nofun rfl
    rw [hm]
    exact hl.push hf
  | test =>
    have hl : s.mem.Listed := h.coreOk hc
    have ho := h.coreOwner hc rfl
    simp only [hc, State.runCore] at hs
    split at hs
    · cases hs
      exact h.core (m := s.mem) (.inr ho) (fun _ _ hx => hx) rfl trivial (fun _ => hl) rfl
    · rename_i hf
      cases hs
      exact h.core (m := s.mem) (.inr ho) (fun _ _ hx => hx) ho ⟨hl,by simpa using hf⟩ nofun rfl
  | waiting =>
    rw [hc] at hs
    cases hs
  | relock =>
    simp only [hc, State.runCore, Option.ite_none_right_eq_some, Option.isNone_iff_eq_none] at hs
    obtain ⟨ho,hs⟩ := hs
    cases hs
    exact h.core (m := s.mem) (.inl ho) (fun _ _ hx => hx) rfl (h.free ho) nofun rfl
  | check =>
    have hok : s.mem.Listed ∧ s.mem.halted c = false := h.coreOk hc
    have ho := h.coreOwner hc rfl
    simp only [hc, State.runCore, hok.2, Bool.false_eq_true, if_false, Option.some.injEq] at hs
    subst hs
    exact h.core (m := s.mem) (.inr ho) (fun _ _ hx => hx) ho hok nofun rfl
  | unlock =>
    rw [hc] at hs
    cases hs
    have hok : s.mem.Listed ∧ s.mem.halted c = false := h.coreOk hc
    exact h.core (m := s.mem) (.inr (h.coreOwner hc rfl)) (fun _ _ hx => hx) rfl hok.2
      (fun _ => hok.1) rfl

/-! The steps of the calls. -/

variable [DecidableEq ρ]

theorem State.others_call (s : State n ρ) (m : Mem n) (o : Option (Fin n ⊕ ρ)) {r : ρ}
    (x : Activation n) {b : Fin n ⊕ ρ} (hb : b≠.inr r) :
    { s with mem := m, owner := o, call := Function.update s.call r x }.inside b = s.inside b ∧
      ∀ m', s.Ok m' b →
        { s with mem := m, owner := o, call := Function.update s.call r x }.Ok m' b := by
  cases b with
  | inl c => exact ⟨rfl,fun _ h => h⟩
  | inr q =>
    have hq : q≠r := fun he => hb (he ▸ rfl)
    simp only [State.inside, State.Ok, Function.update_of_ne hq]
    exact ⟨trivial,fun _ h => h⟩

theorem Inv.call (h : Inv s) {r : ρ} {x : Activation n} {m : Mem n} {o : Option (Fin n ⊕ ρ)}
    (ho : s.owner = none ∨ s.owner = some (.inr r))
    (hm : ∀ c, s.mem.halted c = false → m.halted c = false)
    (ho' : o = if x.pc.inside then some (.inr r) else none) (hx : x.pc.Ok x.call x.taken m)
    (hfree : x.pc.inside = false → m.Listed) (hkey : m.heap.key = s.mem.heap.key) :
    Inv { s with mem := m, owner := o, call := Function.update s.call r x } := by
  refine h.holder (a := .inr r) ho (fun b hb => s.others_call m o x hb)
    (fun c _ => hm c) ?_ ?_ ?_ hkey
  · simpa [State.inside] using ho'
  · simpa [State.Ok] using hx
  · simpa [State.inside] using hfree

omit [DecidableEq ρ] in
theorem Inv.callOk (h : Inv s) {r : ρ} {p : Pc n} (hr : (s.call r).pc = p) :
    p.Ok (s.call r).call (s.call r).taken s.mem :=
  hr ▸ h.ok (.inr r)

omit [DecidableEq ρ] in
theorem Inv.callOwner (h : Inv s) {r : ρ} {p : Pc n} (hr : (s.call r).pc = p)
    (hp : p.inside = true) : s.owner = some (.inr r) :=
  (h.mutex (.inr r)).mpr (by rw [State.inside, hr, hp])

theorem Inv.runCall (h : Inv s) {r : ρ} (hs : s.runCall r (s.call r).pc = some s') :
    Inv s' := by
  cases hr : (s.call r).pc with
  | idle =>
    rw [hr] at hs
    cases hs
  | lock =>
    simp only [hr, State.runCall, Option.ite_none_right_eq_some, Option.isNone_iff_eq_none] at hs
    obtain ⟨ho,hs⟩ := hs
    cases hs
    have hin := (s.call r).call.entry_inside
    refine h.call (m := s.mem) (.inl ho) (fun _ hx => hx) ?_ (Pc.Ok.entry (h.free ho) _) ?_ rfl
    · simp [hin]
    · simp [hin]
  | test c cs =>
    obtain ⟨hl,hd⟩ := h.callOk hr
    have ho := h.callOwner hr rfl
    simp only [hr, State.runCall] at hs
    split at hs
    · cases hs
      exact h.call (m := s.mem) (.inr ho) (fun _ hx => hx) ho
        ⟨hl.elim (fun hl => hl.2) fun hl => hl.but c,hd⟩ nofun rfl
    · rename_i hf
      cases hs
      have hf : s.mem.halted c = false := by simpa using hf
      have hl : s.mem.Listed := hl.resolve_left fun hl => by simp [hf] at hl
      rw [Mem.set_self hf] at hd
      have hin := Pc.after_inside cs
      refine h.call (m := s.mem) (.inr ho) (fun _ hx => hx) ?_ (Pc.Ok.after hl hd) ?_ rfl
      · simpa [hin] using ho
      · simp [hin]
  | clear c cs =>
    obtain ⟨hl,hd⟩ := h.callOk hr
    have ho := h.callOwner hr rfl
    rw [hr] at hs
    cases hs
    exact h.call (.inr ho) (fun _ hx => Mem.set_false hx) ho
      ⟨hl.set false,by simp [Mem.set],hd⟩ nofun rfl
  | remove c cs =>
    obtain ⟨hl,hf,hd⟩ := h.callOk hr
    have ho := h.callOwner hr rfl
    rw [hr] at hs
    cases hs
    exact h.call (.inr ho) (fun _ hx => hx) ho ⟨hl.remove hf,hd⟩ nofun rfl
  | signal c cs =>
    obtain ⟨hl,hd⟩ := h.callOk hr
    have ho := h.callOwner hr rfl
    rw [hr] at hs
    cases hs
    have hin := Pc.after_inside cs
    have hw := State.wake_same s c
    refine (h.wake c).call (m := (s.wake c).mem) (.inr (hw.2.1.trans ho)) (fun _ hx => hx) ?_ ?_
      ?_ rfl
    · simpa [hin, hw.2.1] using ho
    · rw [hw.1, hw.2.2]
      exact Pc.Ok.after hl hd
    · simp [hin]
  | empty =>
    obtain ⟨hl,hk,ht⟩ := h.callOk hr
    have ho := h.callOwner hr rfl
    simp only [hr, State.runCall] at hs
    split at hs
    · rename_i he
      cases hs
      have hnone := hl.empty_iff.mp he
      exact h.call (m := s.mem) (.inr ho) (fun _ hx => hx) ho
        ⟨hl,.inr ⟨hk,fun c => ht ▸ hnone c,ht⟩⟩ nofun rfl
    · rename_i he
      cases hs
      exact h.call (m := s.mem) (.inr ho) (fun _ hx => hx) ho
        ⟨hl,hk,ht,by simpa using he⟩ nofun rfl
  | pop =>
    obtain ⟨hl,hk,ht,he⟩ := h.callOk hr
    have ho := h.callOwner hr rfl
    obtain ⟨c,hc,hf,hb⟩ := hl.pop he
    have hkey : s.mem.pop.1.heap.key s.mem.pop.2 = some c := by
      rw [hc]
      exact h.key c
    simp only [hr, State.runCall, hkey, Option.some.injEq] at hs
    subst hs
    refine h.call (.inr ho) (fun _ hx => hx) ho ⟨.inl ⟨hf,hb⟩,?_⟩ nofun rfl
    simp only [hk]
    exact ⟨rfl,c,ht ▸ hf,ht ▸ rfl⟩
  | unlock =>
    obtain ⟨hl,hd⟩ := h.callOk hr
    rw [hr] at hs
    cases hs
    exact h.call (m := s.mem) (.inr (h.callOwner hr rfl)) (fun _ hx => hx) rfl trivial
      (fun _ => hl) rfl
  | fault => exact (h.callOk hr).elim

theorem Inv.begin (h : Inv s) {r : ρ} (hr : (s.call r).pc = .idle) (k : Call n) :
    Inv (s.begin r k) := by
  refine h.quiet (a := .inr r) (fun b hb => s.others_call s.mem s.owner _ hb) ?_ ?_ rfl rfl
  · simp [State.inside, State.begin, hr, Pc.inside]
  · simp [State.Ok, State.begin, Pc.Ok]

theorem Inv.exec (h : Inv s) {a : Label n ρ} (hs : s.exec a = some s') : Inv s' := by
  cases a with
  | halt c => exact h.runCore hs
  | spurious c =>
    cases hs
    exact h.wake c
  | begin r k =>
    simp only [State.exec, Option.ite_none_right_eq_some, Option.some.injEq] at hs
    obtain ⟨hr,rfl⟩ := hs
    exact h.begin hr k
  | run r => exact h.runCall hs

theorem bootMem_listed (n : Nat) : (bootMem n).Listed := by
  refine ⟨[],⟨⟨fun _ => rfl,fun _ => rfl⟩,?_⟩,fun x => by simp [bootMem]⟩
  exact {
    path := fun _ => rfl
    nodup := fun _ => List.nodup_nil
    disjoint := nofun
    headInj := fun _ _ _ => rfl
    headNotMem := fun _ _ => List.not_mem_nil
    single := fun _ _ _ => rfl }

omit [DecidableEq ρ] in
theorem Inv.boot : Inv (boot n ρ) where
  mutex a := by cases a with
    | inl c => simp [HaltedList.boot, State.inside, CorePc.inside]
    | inr r => simp [HaltedList.boot, State.inside, Pc.inside]
  ok a := by cases a with
    | inl c => rfl
    | inr r => trivial
  free _ := bootMem_listed n
  key _ := rfl

theorem reachable_inv (hr : (system n ρ).Reachable s) : Inv s :=
  (system n ρ).invariant Inv (fun s hs => by
    rw [show s = HaltedList.boot n ρ from hs]
    exact .boot) (fun _ _ _ h hs => h.exec hs) hr

/-! The end of a call that has the mutex. -/

def Pc.left : Pc n → Nat
  | .idle | .lock | .unlock | .fault => 0
  | .test _ cs => 4*cs.length+4
  | .clear _ cs => 4*cs.length+3
  | .remove _ cs => 4*cs.length+2
  | .signal _ cs => 4*cs.length+1
  | .empty => 6
  | .pop => 5

theorem Pc.after_left (cs : List (Fin n)) : (Pc.after cs).left = 4*cs.length := by
  cases cs with
  | nil => rfl
  | cons c cs => simp [Pc.after, Pc.left, Nat.mul_succ]

theorem Call.entry_left (k : Call n) : k.entry.left ≤ 4*n+6 := by
  cases k with
  | restart c => simp [Call.entry, Pc.left]
  | restartOne => simp [Call.entry, Pc.left]
  | restartAll => simp [Call.entry, Pc.after_left]

structure Nearer (x y : Activation n) : Prop where
  call : y.call = x.call
  taken : y.taken = x.taken
  inside : y.pc.inside = true
  left : y.pc.left < x.pc.left

theorem State.callTo_nearer {r : ρ} {p : Pc n} (hin : p.inside = true)
    (hlt : p.left < (s.call r).pc.left) : Nearer (s.call r) ((s.callTo r p).call r) := by
  constructor <;> simp [State.callTo, hin, hlt]

theorem Inv.goes (h : Inv s) {r : ρ} (hin : (s.call r).pc.inside = true)
    (hne : (s.call r).pc≠.unlock) :
    ∃ s', s.runCall r (s.call r).pc = some s' ∧ Nearer (s.call r) (s'.call r) := by
  cases hr : (s.call r).pc with
  | idle => simp [hr, Pc.inside] at hin
  | lock => simp [hr, Pc.inside] at hin
  | test c cs =>
    simp only [State.runCall]
    split
    · exact ⟨_,rfl,State.callTo_nearer rfl (by simp [hr, Pc.left])⟩
    · refine ⟨_,rfl,State.callTo_nearer (Pc.after_inside cs) ?_⟩
      rw [hr, Pc.after_left, Pc.left]
      omega
  | clear c cs =>
    exact ⟨_,rfl,State.callTo_nearer (s := { s with mem := s.mem.set c false }) rfl
      (by simp [hr, Pc.left])⟩
  | remove c cs =>
    exact ⟨_,rfl,State.callTo_nearer (s := { s with mem := s.mem.remove c }) rfl
      (by simp [hr, Pc.left])⟩
  | signal c cs =>
    have hcall : (s.wake c).call = s.call := (State.wake_same s c).2.2
    have hn := State.callTo_nearer (s := s.wake c) (r := r) (Pc.after_inside cs)
      (by rw [hcall, hr, Pc.after_left, Pc.left]; omega)
    rw [hcall] at hn
    exact ⟨_,rfl,hn⟩
  | empty =>
    simp only [State.runCall]
    split
    · exact ⟨_,rfl,State.callTo_nearer rfl (by simp [hr, Pc.left])⟩
    · exact ⟨_,rfl,State.callTo_nearer rfl (by simp [hr, Pc.left])⟩
  | pop =>
    obtain ⟨hl,-,-,he⟩ := h.callOk hr
    obtain ⟨c,hc,-,-⟩ := hl.pop he
    have hkey : s.mem.pop.1.heap.key s.mem.pop.2 = some c := by
      rw [hc]
      exact h.key c
    simp only [State.runCall, hkey]
    exact ⟨_,rfl,State.callTo_nearer (s := { s with mem := s.mem.pop.1 }) rfl
      (by simp [hr, Pc.left])⟩
  | unlock => exact absurd hr hne
  | fault => exact (h.callOk hr).elim

theorem State.exec_call {a : Label n ρ} {r : ρ} (ha : a≠.run r) (hr : (s.call r).pc≠.idle)
    (hs : s.exec a = some s') : s'.call r = s.call r := by
  cases a with
  | halt c =>
    have hcore : ∀ p, s.runCore c p = some s' → s'.call = s.call := by
      intro p hp
      cases p <;> simp only [State.runCore, Option.ite_none_right_eq_some,
        Option.ite_none_left_eq_some, Option.some.injEq] at hp
      case test =>
        split at hp <;> cases hp <;> rfl
      case waiting => cases hp
      all_goals
        first
          | exact hp ▸ rfl
          | exact hp.2 ▸ rfl
    rw [hcore _ hs]
  | spurious c =>
    cases hs
    rw [(State.wake_same s c).2.2]
  | begin q k =>
    simp only [State.exec, Option.ite_none_right_eq_some, Option.some.injEq] at hs
    obtain ⟨hq,rfl⟩ := hs
    have hqr : r≠q := fun he => hr (he ▸ hq)
    simp [State.begin, hqr]
  | run q =>
    have hqr : r≠q := fun he => ha (he ▸ rfl)
    have hto : ∀ (t : State n ρ) p, (t.callTo q p).call r = t.call r := fun t p => by
      simp [State.callTo, hqr]
    have hs : s.runCall q (s.call q).pc = some s' := hs
    generalize (s.call q).pc = p at hs
    cases p with
    | idle => cases hs
    | fault => cases hs
    | lock =>
      simp only [State.runCall, Option.ite_none_right_eq_some, Option.some.injEq] at hs
      rw [← hs.2]
      simp [State.take, hqr]
    | test c cs =>
      simp only [State.runCall] at hs
      split at hs <;> cases hs <;> exact hto s _
    | empty =>
      simp only [State.runCall] at hs
      split at hs <;> cases hs <;> exact hto s _
    | pop =>
      simp only [State.runCall] at hs
      split at hs <;> cases hs <;> exact hto _ _
    | signal c cs =>
      cases hs
      rw [hto, (State.wake_same s c).2.2]
    | _ =>
      cases hs
      exact hto _ _

structure Inside (r : ρ) (k : Call n) (t : Mem n) (s : State n ρ) : Prop where
  inv : Inv s
  call : (s.call r).call = k
  taken : (s.call r).taken = t
  inside : (s.call r).pc.inside = true

theorem Inside.exec {r : ρ} {k : Call n} {t : Mem n} (h : Inside r k t s) {a : Label n ρ}
    (hne : (s.call r).pc≠.unlock) (hs : s.exec a = some s') :
    Inside r k t s' ∧ (s'.call r).pc.left+(if a = .run r then 1 else 0) ≤
      (s.call r).pc.left := by
  have hinv := h.inv.exec hs
  by_cases ha : a = .run r
  · subst ha
    obtain ⟨u,hu,hn⟩ := h.inv.goes h.inside hne
    obtain rfl : u = s' := Option.some.inj (hu.symm.trans hs)
    refine ⟨⟨hinv,hn.call.trans h.call,hn.taken.trans h.taken,hn.inside⟩,?_⟩
    have hlt := hn.left
    simp only [if_true]
    omega
  · have hidle : (s.call r).pc≠.idle := by
      intro he
      have hin := h.inside
      rw [he] at hin
      cases hin
    have hsame := State.exec_call ha hidle hs
    refine ⟨⟨hinv,?_,?_,?_⟩,?_⟩
    · rw [hsame, h.call]
    · rw [hsame, h.taken]
    · rw [hsame, h.inside]
    · simp [hsame, ha]

theorem Inside.of_take {r : ρ} (h : Inv s) (hr : (s.call r).pc = .lock)
    (hs : s.exec (.run r) = some s') :
    Inside r (s.call r).call s.mem s' ∧ (s'.call r).pc.left ≤ 4*n+6 := by
  have hinv := h.exec hs
  simp only [State.exec, hr, State.runCall, Option.ite_none_right_eq_some, Option.some.injEq] at hs
  obtain ⟨-,rfl⟩ := hs
  refine ⟨⟨hinv,?_,?_,?_⟩,?_⟩
  · simp [State.take]
  · simp [State.take]
  · simp [State.take, Call.entry_inside]
  · simpa [State.take] using (s.call r).call.entry_left

/-- A call that has the mutex comes to pthread_mutex_unlock with the steps that it has left,
and has to wait at none of them, whatever the others do. -/
theorem Inside.ends {r : ρ} {k : Call n} {m : Mem n} (h : Inside r k m s) {as : List (Label n ρ)}
    {t : State n ρ} (hrun : (system n ρ).run s as = some t) :
    (∃ pre u, pre<+:as ∧ (system n ρ).run s pre = some u ∧ Inside r k m u ∧
      (u.call r).pc = .unlock) ∨
    as.count (.run r) ≤ (s.call r).pc.left ∧ ∃ t', (system n ρ).next t (.run r) = some t' := by
  exact (system n ρ).own_steps (.run r) (Inside r k m) (fun s => (s.call r).pc = .unlock)
    (fun s => (s.call r).pc.left) (fun s a s' hi hne hs => hi.exec hne hs)
    (fun s hi hne => (hi.inv.goes hi.inside hne).imp fun _ hs => hs.1) h hrun

/-- With core_halt_mutex free halted_list is exact, and the two functions that look for
halted cores restart one of them, or all; a call that has taken core_halt_mutex gets there. -/
theorem halted_list_exact {n : Nat} {ρ : Type*} [DecidableEq ρ] {s : State n ρ}
    (hr : (system n ρ).Reachable s) :
    (s.owner = none → Linked s.mem.heap ∧
      (∃ l : List (Fin n), Ring.RingOf s.mem.heap.next none (l.map some) ∧ l.Nodup ∧
        ∀ c, c∈l ↔ s.mem.halted c = true) ∧
      ∀ c, s.mem.halted c = false →
        s.mem.heap.next (some c) = some c ∧ s.mem.heap.prev (some c) = some c) ∧
    (∀ r, (s.call r).call = .restartOne → (s.call r).pc = .unlock →
      (∃ c, (s.call r).taken.halted c = true ∧
        s.mem.halted = Function.update (s.call r).taken.halted c false) ∨
      (∀ c, (s.call r).taken.halted c = false) ∧ s.mem = (s.call r).taken) ∧
    (∀ r, (s.call r).call = .restartAll → (s.call r).pc = .unlock →
      ∀ c, s.mem.halted c = false) ∧
    (∀ r, (s.call r).pc≠.fault) ∧
    ∀ r s1 as t, (s.call r).pc = .lock → (system n ρ).next s (.run r) = some s1 →
      (system n ρ).run s1 as = some t →
      (∃ pre u, pre<+:as ∧ (system n ρ).run s1 pre = some u ∧
        (u.call r).call = (s.call r).call ∧ (u.call r).taken = s.mem ∧ (u.call r).pc = .unlock) ∨
      as.count (.run r) ≤ 4*n+6 ∧ ∃ t', (system n ρ).next t (.run r) = some t' := by
  have h := reachable_inv hr
  refine ⟨fun ho => ?_,fun r hk hp => ?_,fun r hk hp => ?_,fun r hp => h.callOk hp,
    fun r s1 as t hp hs1 hrun => ?_⟩
  · obtain ⟨l,hl,hm⟩ := h.free ho
    have hsome : (l.filterMap id).map some = l := by
      rw [List.map_filterMap]
      have hid : ∀ x∈l, (Option.map some (id x)) = some x := by
        intro x hx
        cases x with
        | none => exact absurd hx (hl.lists.headNotMem () ())
        | some c => rfl
      rw [List.filterMap_congr hid, List.filterMap_some]
    have hnodup : (l.filterMap id).Nodup := by
      refine List.Nodup.of_map some ?_
      rw [hsome]
      exact hl.lists.nodup ()
    refine ⟨hl.linked,⟨l.filterMap id,?_,hnodup,fun c => ?_⟩,fun c hc => ?_⟩
    · rw [hsome]
      exact ⟨hl.lists.cons_nodup (),hl.lists.path ()⟩
    · rw [← hm c]
      simp
    · have hcl : some c∉l := by simp [hm, hc]
      exact ⟨hl.lists.single _ (fun _ => nofun) fun _ => hcl,
        hl.prev_single (fun _ => nofun) fun _ => hcl⟩
  · have hok := (h.callOk hp).2
    simp only [hk, Call.Done] at hok
    exact hok.imp (fun hd => hd.2) fun hd => hd.2
  · have hok := (h.callOk hp).2
    simp only [hk, Call.Done] at hok
    exact hok.elim (fun hd c => hd c List.not_mem_nil) nofun
  · obtain ⟨hin,hleft⟩ := Inside.of_take h hp hs1
    rcases hin.ends hrun with ⟨pre,u,hpre,hu,hi,hpu⟩ | ⟨hlen,ht⟩
    · exact .inl ⟨pre,u,hpre,hu,hi.call,hi.taken,hpu⟩
    · exact .inr ⟨hlen.trans hleft,ht⟩

/-- Core 0 halts, and a call of cpu_core_restart_one finds it. -/
theorem halted_list_restartOne : ∃ s : State 2 Unit, (system 2 Unit).Reachable s ∧
    ((s.call ()).call = .restartOne ∧ (s.call ()).pc = .unlock ∧
      (s.call ()).taken.halted 0 = true) ∧
    ∃ c, s.mem.halted = Function.update (s.call ()).taken.halted c false := by
  obtain ⟨s,hs,hp⟩ := (system 2 Unit).reaches (s := boot 2 Unit) rfl
    ((List.replicate 5 (.halt 0))++(.begin () .restartOne)::List.replicate 7 (.run ()))
    (fun s => (s.call ()).call = .restartOne ∧ (s.call ()).pc = .unlock ∧
      (s.call ()).taken.halted 0 = true) (by decide)
  refine ⟨s,hs,hp,?_⟩
  cases (halted_list_exact hs).2.1 () hp.1 hp.2.1 with
  | inl hc =>
    obtain ⟨c,-,hc⟩ := hc
    exact ⟨c,hc⟩
  | inr hc =>
    rw [hc.1 0] at hp
    cases hp.2.2

end
end TinyOS.Bios.HaltedList
