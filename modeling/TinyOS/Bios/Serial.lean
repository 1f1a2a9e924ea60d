import Mathlib.Data.List.FinRange
import Mathlib.Logic.Function.Basic
import TinyOS.Lib.Transition

/-! The serial devices of bios.c: the loop of PIC_daemon against io_device_read and
io_device_write, which any number of threads call. Each access to the flags of a device
and to the signals of the PIC is one step. What a transfer, check_terminal and select find
is left open. -/
namespace TinyOS.Bios.Serial
open Transition

inductive Side where
  | con | kbd
  deriving DecidableEq

abbrev Dev (n : Nat) := Fin n × Side

def SERIAL_TIMEOUT : Nat := 300

/-- An io_device; for the proofs it keeps whether a transfer has failed since the last
interrupt that was raised for it. -/
structure IoDevice where
  ready : Bool
  lastInt : BitVec 64
  failed : Bool

inductive CallPc where
  | transfer
  /-- rc!=1; if(this->ready) -/
  | test
  | clear
  /-- interrupt_pic_thread -/
  | signal
  deriving DecidableEq

structure Call (n : Nat) where
  dev : Dev n
  pc : CallPc
  deriving DecidableEq

/-- Where the PIC is in its loop; the lists are what its inner loops have still to do. -/
inductive PicPc (n : Nat) where
  | test
  | check (ps : List (Fin n))
  | addKbd (p : Fin n) (ps : List (Fin n))
  | addCon (p : Fin n) (ps : List (Fin n))
  | select
  /-- select has failed or not, and with sigusr1fd in the set or not. -/
  | clock (ok usr1 : Bool)
  | drain (usr1 : Bool)
  | visit (ds : List (Dev n))
  | setReady (d : Dev n) (ds : List (Dev n))
  | setInt (d : Dev n) (ds : List (Dev n))
  | raise (d : Dev n) (ds : List (Dev n))
  /-- The end of the body. -/
  | finish
  deriving DecidableEq

/-- For the proofs it keeps, for the pass that is on, which flags have been looked at,
which terminals have been skipped, and which interrupts have been raised. -/
structure State (n : Nat) (ρ : Type*) where
  dev : Dev n → IoDevice
  call : ρ → Option (Call n)
  pic : PicPc n
  /-- readfds and writefds -/
  fds : Dev n → Bool
  /-- system_clock -/
  clock : BitVec 64
  /-- SIGUSR1 signals queued at the PIC. -/
  queued : Nat
  looked : Dev n → Bool
  skipped : Fin n → Bool
  raised : List (Dev n)

section
variable {n : Nat} {ρ : Type*}

def State.modDev (s : State n ρ) (d : Dev n) (f : IoDevice → IoDevice) : State n ρ :=
  { s with dev := Function.update s.dev d (f (s.dev d)) }

def State.picTo (s : State n ρ) (p : PicPc n) : State n ρ := { s with pic := p }

def devices (n : Nat) : List (Dev n) :=
  (List.finRange n).flatMap fun p => [(p,.con),(p,.kbd)]

def State.add (s : State n ρ) (d : Dev n) : State n ρ :=
  { s with
    fds := if (s.dev d).ready then s.fds else Function.update s.fds d true
    looked := Function.update s.looked d true }

def State.expired (s : State n ρ) (d : Dev n) : Bool :=
  SERIAL_TIMEOUT < (s.clock-(s.dev d).lastInt).toNat

def State.runPic (s : State n ρ) : PicPc n → Option (State n ρ)
  | .test =>
    some ({ s with fds := fun _ => false, looked := fun _ => false, skipped := fun _ => false
                   raised := [] }.picTo (.check (List.finRange n)))
  | .check [] => some (s.picTo .select)
  | .check (_::_) => none
  | .addKbd p ps => some ((s.add (p,.kbd)).picTo (.addCon p ps))
  | .addCon p ps => some ((s.add (p,.con)).picTo (.check ps))
  | .select => none
  | .clock _ _ => none
  | .drain usr1 =>
    some ({ s with queued := if usr1 then 0 else s.queued }.picTo (.visit (devices n)))
  | .visit [] => some (s.picTo .finish)
  | .visit (d::ds) =>
    if s.fds d || s.expired d then some (s.picTo (.setReady d ds)) else some (s.picTo (.visit ds))
  | .setReady d ds => some ((s.modDev d fun k => { k with ready := true }).picTo (.setInt d ds))
  | .setInt d ds =>
    some ((s.modDev d fun k => { k with lastInt := s.clock }).picTo (.raise d ds))
  | .raise d ds =>
    some ({ s.modDev d fun k => { k with failed := false } with
      raised := s.raised++[d] }.picTo (.visit ds))
  | .finish => some (s.picTo .test)

def State.checkTerminal (s : State n ρ) (live : Bool) : PicPc n → Option (State n ρ)
  | .check (p::ps) =>
    if live then some (s.picTo (.addKbd p ps))
    else some ({ s with skipped := Function.update s.skipped p true }.picTo (.check ps))
  | _ => none

/-- select leaves what it found of the set, or fails. -/
def State.select (s : State n ρ) (found : Option (Dev n → Bool)) : PicPc n → Option (State n ρ)
  | .select =>
    match found with
    | some f =>
      some ({ s with fds := fun d => s.fds d && f d }.picTo (.clock true (0 < s.queued)))
    | none => some (s.picTo (.clock false false))
  | _ => none

def State.setClock (s : State n ρ) (now : BitVec 64) : PicPc n → Option (State n ρ)
  | .clock ok usr1 =>
    some ({ s with clock := now }.picTo (if ok then .drain usr1 else .test))
  | _ => none

variable [DecidableEq ρ]

def State.callTo (s : State n ρ) (r : ρ) (c : Option (Call n)) : State n ρ :=
  { s with call := Function.update s.call r c }

def State.transfer (s : State n ρ) (r : ρ) (ok : Bool) (c : Call n) : Option (State n ρ) :=
  match c.pc with
  | .transfer =>
    if ok then some (s.callTo r none)
    else some ((s.modDev c.dev fun k => { k with failed := true }).callTo r
      (some { c with pc := .test }))
  | _ => none

def State.runCall (s : State n ρ) (r : ρ) (c : Call n) : Option (State n ρ) :=
  match c.pc with
  | .transfer => none
  | .test =>
    if (s.dev c.dev).ready then some (s.callTo r (some { c with pc := .clear }))
    else some (s.callTo r none)
  | .clear => some ((s.modDev c.dev fun k => { k with ready := false }).callTo r
      (some { c with pc := .signal }))
  | .signal => some ({ s with queued := s.queued+1 }.callTo r none)

inductive Label (n : Nat) (ρ : Type*) where
  | begin (r : ρ) (d : Dev n)
  | transfer (r : ρ) (ok : Bool)
  | run (r : ρ)
  | check (live : Bool)
  | select (found : Option (Dev n → Bool))
  | clock (now : BitVec 64)
  | pic

def State.exec (s : State n ρ) : Label n ρ → Option (State n ρ)
  | .begin r d => if (s.call r).isNone then some (s.callTo r (some ⟨d,.transfer⟩)) else none
  | .transfer r ok => (s.call r).bind (s.transfer r ok)
  | .run r => (s.call r).bind (s.runCall r)
  | .check live => s.checkTerminal live s.pic
  | .select found => s.select found s.pic
  | .clock now => s.setClock now s.pic
  | .pic => s.runPic s.pic

def opened (n : Nat) (ρ : Type*) (ready : Dev n → Bool) (clock : BitVec 64) : State n ρ where
  dev d := ⟨ready d,clock,false⟩
  call _ := none
  pic := .test
  fds _ := false
  clock := clock
  queued := 0
  looked _ := false
  skipped _ := false
  raised := []

def system (n : Nat) (ρ : Type*) [DecidableEq ρ] : System (State n ρ) (Label n ρ) where
  init s := ∃ ready clock, s = opened n ρ ready clock
  next := State.exec

end

/-! What the flags of a device say about the transfers and the loop. -/

section
variable {n : Nat} {ρ : Type*}

def PicPc.marks (d : Dev n) : PicPc n → Prop
  | .setInt e _ => e = d
  | .raise e _ => e = d
  | _ => False

def PicPc.watches : PicPc n → Bool
  | .check _ | .addKbd _ _ | .addCon _ _ | .select => true
  | _ => false

def PicPc.early : PicPc n → Bool
  | .check _ | .addKbd _ _ | .addCon _ _ | .select | .clock _ _ | .drain _ => true
  | _ => false

def PicPc.todo : PicPc n → List (Fin n)
  | .check ps => ps
  | .addKbd p ps | .addCon p ps => p::ps
  | _ => []

def PicPc.rest : PicPc n → Option (List (Dev n))
  | .visit ds => some ds
  | .setReady d ds | .setInt d ds | .raise d ds => some (d::ds)
  | .finish => some []
  | _ => none

def State.Calls (s : State n ρ) (d : Dev n) (p : CallPc) : Prop := ∃ r, s.call r = some ⟨d,p⟩

def Visited (s : State n ρ) (rest : List (Dev n)) : Prop :=
  ∃ gone, gone++rest = devices n ∧ s.raised.Sublist gone ∧
    ∀ d∈gone, (s.fds d = true → d∈s.raised) ∧ s.expired d = false

structure Inv (s : State n ρ) : Prop where
  failed : ∀ d, (s.dev d).failed = true → (s.dev d).ready = false ∨ s.Calls d .test ∨
    s.Calls d .clear ∨ s.pic.marks d
  looked : s.pic.watches = true → ∀ d, s.looked d = true → (s.dev d).ready = false →
    s.fds d = true ∨ 0 < s.queued ∨ s.Calls d .signal
  todo : s.pic.watches = true → ∀ p, p∉s.pic.todo → s.skipped p = true ∨
    (s.looked (p,.kbd) = true ∧ s.looked (p,.con) = true)
  kbd : ∀ p ps, s.pic = .addCon p ps → s.looked (p,.kbd) = true
  rest : ∀ ds, s.pic.rest = some ds → Visited s ds
  lastInt : ∀ d ds, s.pic = .raise d ds → s.expired d = false
  early : s.pic.early = true → s.raised = []

variable {s s' : State n ρ} {d : Dev n} {p : CallPc} {r : ρ}

/-! The calls change nothing of the pass. -/

structure Keeps (s s' : State n ρ) : Prop where
  pic : s'.pic = s.pic
  fds : s'.fds = s.fds
  clock : s'.clock = s.clock
  lastInt : ∀ d, (s'.dev d).lastInt = (s.dev d).lastInt
  looked : s'.looked = s.looked
  skipped : s'.skipped = s.skipped
  raised : s'.raised = s.raised

theorem Keeps.expired (hk : Keeps s s') (d : Dev n) : s'.expired d = s.expired d := by
  rw [State.expired, State.expired, hk.clock, hk.lastInt]

theorem Inv.keeps (h : Inv s) (hk : Keeps s s')
    (hf : ∀ d, (s'.dev d).failed = true → (s'.dev d).ready = false ∨ s'.Calls d .test ∨
      s'.Calls d .clear ∨ s.pic.marks d)
    (hl : ∀ d, (s.pic.watches = true → s.looked d = true → (s.dev d).ready = false →
        s.fds d = true ∨ 0 < s.queued ∨ s.Calls d .signal) → s.pic.watches = true →
      s.looked d = true → (s'.dev d).ready = false →
      s.fds d = true ∨ 0 < s'.queued ∨ s'.Calls d .signal) : Inv s' := by
  refine ⟨?_,?_,?_,?_,?_,?_,?_⟩
  · rw [hk.pic]
    exact hf
  · rw [hk.pic, hk.looked, hk.fds]
    exact fun hw d => hl d (fun hw => h.looked hw d) hw
  · rw [hk.pic, hk.looked, hk.skipped]
    exact h.todo
  · rw [hk.pic, hk.looked]
    exact h.kbd
  · rw [hk.pic]
    intro ds hds
    obtain ⟨gone,hg,hs,hd⟩ := h.rest ds hds
    refine ⟨gone,hg,hk.raised ▸ hs,fun e he => ?_⟩
    rw [hk.fds, hk.raised, hk.expired]
    exact hd e he
  · rw [hk.pic]
    intro e ds hpc
    rw [hk.expired]
    exact h.lastInt e ds hpc
  · rw [hk.pic, hk.raised]
    exact h.early

/-! A pass of the PIC. -/

theorem Inv.goes (h : Inv s) {p : PicPc n} (hdev : s'.dev = s.dev) (hcall : s'.call = s.call)
    (hpic : s'.pic = p) (hm : ∀ d, s.pic.marks d → p.marks d)
    (hlooked : p.watches = true → ∀ d, s'.looked d = true → (s.dev d).ready = false →
      s'.fds d = true ∨ 0 < s'.queued ∨ s.Calls d .signal)
    (htodo : p.watches = true → ∀ q, q∉p.todo → s'.skipped q = true ∨
      (s'.looked (q,.kbd) = true ∧ s'.looked (q,.con) = true))
    (hkbd : ∀ q ps, p = .addCon q ps → s'.looked (q,.kbd) = true)
    (hrest : ∀ ds, p.rest = some ds → Visited s' ds)
    (hlast : ∀ d ds, p = .raise d ds → s'.expired d = false)
    (hearly : p.early = true → s'.raised = []) : Inv s' := by
  have hcalls : ∀ d q, s.Calls d q → s'.Calls d q := by
    intro d q ⟨r,hr⟩
    exact ⟨r,hcall ▸ hr⟩
  subst hpic
  refine ⟨fun d hf => ?_,fun hw d hd hready => ?_,htodo,hkbd,hrest,hlast,hearly⟩
  · rw [hdev] at hf ⊢
    rcases h.failed d hf with hready | hc | hc | hd
    · exact .inl hready
    · exact .inr (.inl (hcalls d _ hc))
    · exact .inr (.inr (.inl (hcalls d _ hc)))
    · exact .inr (.inr (.inr (hm d hd)))
  · rw [hdev] at hready
    exact (hlooked hw d hd hready).imp_right fun hq => hq.imp_right (hcalls d _)

theorem State.looked_add (s : State n ρ) {d e : Dev n} (h : s.looked e = true) :
    (s.add d).looked e = true := by
  by_cases he : e = d
  · simp [State.add, he]
  · simp [State.add, Function.update_of_ne he, h]

theorem State.add_looked (h : ∀ e, s.looked e = true → (s.dev e).ready = false →
      s.fds e = true ∨ 0 < s.queued ∨ s.Calls e .signal) :
    ∀ e, (s.add d).looked e = true → (s.dev e).ready = false →
      (s.add d).fds e = true ∨ 0 < s.queued ∨ s.Calls e .signal := by
  intro e he hready
  by_cases hed : e = d
  · subst hed
    exact .inl (by simp [State.add, hready])
  · simp only [State.add, Function.update_of_ne hed] at he
    refine (h e he hready).imp_left fun hf => ?_
    simp only [State.add]
    split
    · exact hf
    · rw [Function.update_of_ne hed, hf]

theorem Inv.test (h : Inv s) (hpc : s.pic = .test) :
    Inv ({ s with fds := fun _ => false, looked := fun _ => false, skipped := fun _ => false
                  raised := [] }.picTo (.check (List.finRange n))) := by
  refine h.goes (p := .check (List.finRange n)) rfl rfl rfl ?_ ?_ ?_ ?_ ?_ ?_ ?_
  · simp [hpc, PicPc.marks]
  · simp [State.picTo]
  · simp [PicPc.todo]
  · simp
  · simp [PicPc.rest]
  · simp
  · simp [State.picTo]

theorem Inv.checkTerminal (h : Inv s) {live : Bool} {p : PicPc n} (hpc : s.pic = p)
    (hs : s.checkTerminal live p = some s') : Inv s' := by
  cases p with
  | check ps =>
    cases ps with
    | nil => cases hs
    | cons p ps =>
      have hw : s.pic.watches = true := by simp [hpc, PicPc.watches]
      have ht := h.todo hw
      simp only [hpc, PicPc.todo] at ht
      simp only [State.checkTerminal] at hs
      split at hs
      · cases hs
        refine h.goes (p := .addKbd p ps) rfl rfl rfl ?_ (fun _ => h.looked hw) (fun _ => ht) ?_ ?_ ?_
          (fun _ => h.early (by simp [hpc, PicPc.early]))
        · simp [hpc, PicPc.marks]
        · simp
        · simp [PicPc.rest]
        · simp
      · cases hs
        refine h.goes (p := .check ps) rfl rfl rfl ?_ (fun _ => h.looked hw) ?_ ?_ ?_ ?_
          (fun _ => h.early (by simp [hpc, PicPc.early]))
        · simp [hpc, PicPc.marks]
        · intro _ q hq
          by_cases hqp : q = p
          · exact .inl (by simp [State.picTo, hqp])
          · simp only [State.picTo, Function.update_of_ne hqp]
            exact ht q (by simp [hqp, show q∉ps from hq])
        · simp
        · simp [PicPc.rest]
        · simp
  | _ => cases hs

theorem Inv.select (h : Inv s) {found : Option (Dev n → Bool)} {p : PicPc n} (hpc : s.pic = p)
    (hs : s.select found p = some s') : Inv s' := by
  cases p with
  | select =>
    have hr := h.early (by simp [hpc, PicPc.early])
    cases found with
    | none =>
      cases hs
      refine h.goes (p := .clock false false) rfl rfl rfl ?_ ?_ ?_ ?_ ?_ ?_ ?_
      all_goals simp [hpc, State.picTo, PicPc.marks, PicPc.watches, PicPc.rest, PicPc.early, hr]
    | some f =>
      cases hs
      refine h.goes (p := .clock true (0 < s.queued)) rfl rfl rfl ?_ ?_ ?_ ?_ ?_ ?_ ?_
      all_goals simp [hpc, State.picTo, PicPc.marks, PicPc.watches, PicPc.rest, PicPc.early, hr]
  | _ => cases hs

theorem Inv.setClock (h : Inv s) {now : BitVec 64} {p : PicPc n} (hpc : s.pic = p)
    (hs : s.setClock now p = some s') : Inv s' := by
  cases p with
  | clock ok usr1 =>
    have hr := h.early (by simp [hpc, PicPc.early])
    cases hs
    refine h.goes (p := if ok then .drain usr1 else .test) rfl rfl rfl ?_ ?_ ?_ ?_ ?_ ?_ ?_
    all_goals cases ok <;> simp [hpc, State.picTo, PicPc.marks, PicPc.watches, PicPc.rest, PicPc.early, hr]
  | _ => cases hs

theorem mem_devices (d : Dev n) : d∈devices n := by
  obtain ⟨p,side⟩ := d
  cases side <;> simp [devices]

theorem devices_nodup (n : Nat) : (devices n).Nodup := by
  rw [devices, List.nodup_flatMap]
  refine ⟨fun p _ => by simp,(List.nodup_finRange n).imp fun {p q} hpq => ?_⟩
  intro d hp hq
  simp only [List.mem_cons, List.not_mem_nil, or_false] at hp hq
  rcases hp with rfl | rfl
  all_goals simp [hpq] at hq

theorem Visited.skip {ds : List (Dev n)} (h : Visited s (d::ds)) (hf : s.fds d = false)
    (he : s.expired d = false) : Visited (s.picTo (.visit ds)) ds := by
  obtain ⟨gone,hg,hs,hd⟩ := h
  refine ⟨gone++[d],by simp [hg],hs.trans (List.sublist_append_left gone [d]),fun e hm => ?_⟩
  rcases List.mem_append.mp hm with hm | hm
  · exact hd e hm
  · rw [List.mem_singleton] at hm
    rw [hm]
    exact ⟨fun hf' => absurd (hf.symm.trans hf') (by simp),he⟩

theorem Visited.raise {ds : List (Dev n)} (h : Visited s (d::ds)) (he : s.expired d = false) :
    Visited ({ s.modDev d fun k => { k with failed := false } with
      raised := s.raised++[d] }.picTo (.visit ds)) ds := by
  obtain ⟨gone,hg,hs,hd⟩ := h
  have hsame : ∀ e, ({ s.modDev d fun k => { k with failed := false } with
      raised := s.raised++[d] }.picTo (.visit ds)).expired e = s.expired e := by
    intro e
    by_cases hed : e = d
    · simp [State.picTo, State.modDev, State.expired, hed]
    · simp [State.picTo, State.modDev, State.expired, Function.update_of_ne hed]
  refine ⟨gone++[d],by simp [hg],hs.append (List.Sublist.refl [d]),fun e hm => ?_⟩
  rw [hsame]
  rcases List.mem_append.mp hm with hm | hm
  · exact ⟨fun hf => List.mem_append_left [d] ((hd e hm).1 hf),(hd e hm).2⟩
  · rw [List.mem_singleton] at hm
    rw [hm]
    exact ⟨fun _ => by simp [State.picTo],he⟩

theorem Visited.update {ds : List (Dev n)} (h : Visited s ds)
    (he : ∀ d, s'.expired d = true → s.expired d = true) (hf : s'.fds = s.fds)
    (hr : s'.raised = s.raised) : Visited s' ds := by
  obtain ⟨gone,hg,hs,hd⟩ := h
  refine ⟨gone,hg,hr ▸ hs,fun d hm => ?_⟩
  obtain ⟨hm,hn⟩ := hd d hm
  rw [hf, hr]
  refine ⟨hm,?_⟩
  cases hx : s'.expired d with
  | false => rfl
  | true =>
    rw [he d hx] at hn
    cases hn

theorem Inv.visits (h : Inv s) {p : PicPc n} (hdev : ∀ e, e≠d → s'.dev e = s.dev e)
    (hcall : s'.call = s.call) (hpic : s'.pic = p) (hother : ∀ e, e≠d → ¬s.pic.marks e)
    (hm : (s'.dev d).failed = true → p.marks d) (hp : p.watches = false ∧ p.early = false)
    (hrest : ∀ ds, p.rest = some ds → Visited s' ds)
    (hlast : ∀ e ds, p = .raise e ds → s'.expired e = false) : Inv s' := by
  have hcalls : ∀ e q, s.Calls e q → s'.Calls e q := by
    intro e q ⟨r,hr⟩
    exact ⟨r,hcall ▸ hr⟩
  subst hpic
  refine ⟨fun e hf => ?_,fun hw => ?_,fun hw => ?_,fun q ps hq => ?_,hrest,hlast,fun he => ?_⟩
  · by_cases hed : e = d
    · subst hed
      exact .inr (.inr (.inr (hm hf)))
    · rw [hdev e hed] at hf ⊢
      rcases h.failed e hf with hready | hc | hc | hd
      · exact .inl hready
      · exact .inr (.inl (hcalls e _ hc))
      · exact .inr (.inr (.inl (hcalls e _ hc)))
      · exact absurd hd (hother e hed)
  · rw [hp.1] at hw
    cases hw
  · rw [hp.1] at hw
    cases hw
  · simp [hq, PicPc.watches] at hp
  · rw [hp.2] at he
    cases he

theorem Inv.runPic (h : Inv s) {p : PicPc n} (hpc : s.pic = p) (hs : s.runPic p = some s') :
    Inv s' := by
  cases p with
  | test =>
    cases hs
    exact h.test hpc
  | check ps =>
    cases ps with
    | cons p ps => cases hs
    | nil =>
      cases hs
      have hw : s.pic.watches = true := by simp [hpc, PicPc.watches]
      have ht := h.todo hw
      simp only [hpc, PicPc.todo] at ht
      refine h.goes (p := .select) rfl rfl rfl ?_ (fun _ => h.looked hw) (fun _ => ht) ?_ ?_ ?_
        (fun _ => h.early (by simp [hpc, PicPc.early]))
      all_goals simp [hpc, PicPc.marks, PicPc.rest]
  | addKbd p ps =>
    cases hs
    have hw : s.pic.watches = true := by simp [hpc, PicPc.watches]
    have ht := h.todo hw
    simp only [hpc, PicPc.todo] at ht
    refine h.goes (p := .addCon p ps) rfl rfl rfl ?_ (fun _ => State.add_looked (h.looked hw)) ?_ ?_
      ?_ ?_ (fun _ => h.early (by simp [hpc, PicPc.early]))
    · simp [hpc, PicPc.marks]
    · intro _ q hq
      exact (ht q hq).imp_right fun hl => ⟨s.looked_add hl.1,s.looked_add hl.2⟩
    · intro q qs he
      cases he
      simp [State.add, State.picTo]
    · simp [PicPc.rest]
    · simp
  | addCon p ps =>
    cases hs
    have hw : s.pic.watches = true := by simp [hpc, PicPc.watches]
    have ht := h.todo hw
    simp only [hpc, PicPc.todo] at ht
    refine h.goes (p := .check ps) rfl rfl rfl ?_ (fun _ => State.add_looked (h.looked hw)) ?_ ?_
      ?_ ?_ (fun _ => h.early (by simp [hpc, PicPc.early]))
    · simp [hpc, PicPc.marks]
    · intro _ q hq
      by_cases hqp : q = p
      · rw [hqp]
        exact .inr ⟨s.looked_add (h.kbd p ps hpc),by simp [State.add, State.picTo]⟩
      · have hl := ht q (by simp [hqp, show q∉ps from hq])
        exact hl.imp_right fun hl => ⟨s.looked_add hl.1,s.looked_add hl.2⟩
    · simp
    · simp [PicPc.rest]
    · simp
  | select => cases hs
  | clock ok usr1 => cases hs
  | drain usr1 =>
    cases hs
    have hr := h.early (by simp [hpc, PicPc.early])
    refine h.goes (p := .visit (devices n)) rfl rfl rfl ?_ ?_ ?_ ?_ ?_ ?_ ?_
    all_goals simp [hpc, PicPc.marks, PicPc.watches, PicPc.early]
    intro ds hds
    cases hds
    refine ⟨[],rfl,?_,fun d hd => by cases hd⟩
    rw [State.picTo, hr]
  | visit ds =>
    have hrest := h.rest
    simp only [hpc, PicPc.rest, Option.some.injEq, forall_eq'] at hrest
    cases ds with
    | nil =>
      cases hs
      refine h.goes (p := .finish) rfl rfl rfl ?_ ?_ ?_ ?_ ?_ ?_ ?_
      all_goals simp [hpc, PicPc.marks, PicPc.watches, PicPc.early, PicPc.rest]
      exact hrest
    | cons d ds =>
      simp only [State.runPic] at hs
      split at hs
      · cases hs
        refine h.goes (p := .setReady d ds) rfl rfl rfl ?_ ?_ ?_ ?_ ?_ ?_ ?_
        all_goals simp [hpc, PicPc.marks, PicPc.watches, PicPc.early, PicPc.rest]
        exact hrest
      · rename_i hd
        cases hs
        simp only [Bool.or_eq_true, not_or, Bool.not_eq_true] at hd
        refine h.goes (p := .visit ds) rfl rfl rfl ?_ ?_ ?_ ?_ ?_ ?_ ?_
        all_goals simp [hpc, PicPc.marks, PicPc.watches, PicPc.early, PicPc.rest]
        exact hrest.skip hd.1 hd.2
  | setReady d ds =>
    cases hs
    have hrest := h.rest
    simp only [hpc, PicPc.rest, Option.some.injEq, forall_eq'] at hrest
    refine h.visits (d := d) (p := .setInt d ds)
      (fun e he => Function.update_of_ne he _ _) rfl rfl ?_ ?_ ?_ ?_ ?_
    all_goals simp [hpc, PicPc.marks, PicPc.watches, PicPc.early, PicPc.rest]
    exact hrest.update (fun e => by
      by_cases he : e = d
      · simp [he, State.picTo, State.modDev, State.expired]
      · simp [State.picTo, State.modDev, State.expired, Function.update_of_ne he]) rfl rfl
  | setInt d ds =>
    cases hs
    have hrest := h.rest
    simp only [hpc, PicPc.rest, Option.some.injEq, forall_eq'] at hrest
    have hnow : ((s.modDev d fun k => { k with lastInt := s.clock }).picTo
        (.raise d ds)).expired d = false := by
      simp [State.picTo, State.modDev, State.expired]
    refine h.visits (d := d) (p := .raise d ds) (fun e he => Function.update_of_ne he _ _) rfl rfl
      ?_ ?_ ?_ ?_ ?_
    all_goals simp [hpc, PicPc.marks, PicPc.watches, PicPc.early, PicPc.rest, -Prod.forall]
    · exact fun e he hd => he hd.symm
    · refine hrest.update (fun e hx => ?_) rfl rfl
      by_cases he : e = d
      · rw [he, hnow] at hx
        cases hx
      · simpa [State.picTo, State.modDev, State.expired, Function.update_of_ne he] using hx
    · exact hnow
  | raise d ds =>
    cases hs
    have hrest := h.rest
    have hnow := h.lastInt d ds hpc
    simp only [hpc, PicPc.rest, Option.some.injEq, forall_eq'] at hrest
    refine h.visits (d := d) (p := .visit ds) (fun e he => Function.update_of_ne he _ _) rfl rfl
      ?_ ?_ ?_ ?_ ?_
    all_goals simp [hpc, PicPc.marks, PicPc.watches, PicPc.early, PicPc.rest, -Prod.forall]
    · exact fun e he hd => he hd.symm
    · simp [State.picTo, State.modDev]
    · exact hrest.raise hnow
  | finish =>
    cases hs
    refine h.goes (p := .test) rfl rfl rfl ?_ ?_ ?_ ?_ ?_ ?_ ?_
    all_goals simp [hpc, PicPc.marks, PicPc.watches, PicPc.early, PicPc.rest]

theorem inv_opened (n : Nat) (ρ : Type*) (ready : Dev n → Bool) (clock : BitVec 64) :
    Inv (opened n ρ ready clock) := by
  constructor
  all_goals simp [opened, PicPc.watches, PicPc.rest, PicPc.early]

variable [DecidableEq ρ]

theorem State.Calls.other {e : Dev n} {q : CallPc} (h : s.Calls e q) {c : Option (Call n)}
    (hs : s'.call = Function.update s.call r c) (hr : ∀ x, s.call r = some x → x≠⟨e,q⟩) :
    s'.Calls e q := by
  obtain ⟨t,ht⟩ := h
  refine ⟨t,?_⟩
  have htr : t≠r := fun he => hr ⟨e,q⟩ (he ▸ ht) rfl
  rw [hs, Function.update_of_ne htr, ht]

theorem State.Calls.ofPc {e : Dev n} {q : CallPc} (h : s.Calls e q) {c : Option (Call n)}
    (hs : s'.call = Function.update s.call r c) (hr : s.call r = some ⟨d,p⟩) (hp : q≠p) :
    s'.Calls e q := by
  refine h.other hs fun x hx he => hp ?_
  rw [hr, Option.some.injEq] at hx
  exact congrArg Call.pc (hx.trans he).symm

theorem State.Calls.ofDev {e : Dev n} {q : CallPc} (h : s.Calls e q) {c : Option (Call n)}
    (hs : s'.call = Function.update s.call r c) (hr : s.call r = some ⟨d,p⟩) (hd : e≠d) :
    s'.Calls e q := by
  refine h.other hs fun x hx he => hd ?_
  rw [hr, Option.some.injEq] at hx
  exact congrArg Call.dev (hx.trans he).symm

theorem State.calls_callTo (s : State n ρ) (r : ρ) (d : Dev n) (p : CallPc) :
    (s.callTo r (some ⟨d,p⟩)).Calls d p :=
  ⟨r,by simp [State.callTo]⟩

theorem Inv.callTo (h : Inv s) {c : Option (Call n)} (hr : ∀ x, s.call r = some x →
    x.pc = .transfer) : Inv (s.callTo r c) := by
  have hcall : ∀ e q, q≠.transfer → s.Calls e q → (s.callTo r c).Calls e q :=
    fun e q hq hc => hc.other rfl fun x hx he => hq ((congrArg Call.pc he).symm.trans (hr x hx))
  refine h.keeps ⟨rfl,rfl,rfl,fun _ => rfl,rfl,rfl,rfl⟩ (fun d hf => ?_) fun d hl hw hd hready => ?_
  · rcases h.failed d hf with hready | hc | hc | hm
    · exact .inl hready
    · exact .inr (.inl (hcall d _ (by simp) hc))
    · exact .inr (.inr (.inl (hcall d _ (by simp) hc)))
    · exact .inr (.inr (.inr hm))
  · exact (hl hw hd hready).imp_right fun hq => hq.imp_right (hcall d _ (by simp))

theorem Keeps.modDev (s : State n ρ) (d : Dev n) (f : IoDevice → IoDevice)
    (hf : ∀ k, (f k).lastInt = k.lastInt) (r : ρ) (c : Option (Call n)) :
    Keeps s ((s.modDev d f).callTo r c) := by
  refine ⟨rfl,rfl,rfl,fun e => ?_,rfl,rfl,rfl⟩
  simp only [State.callTo, State.modDev]
  by_cases he : e = d
  · rw [he, Function.update_self, hf]
  · rw [Function.update_of_ne he]

theorem Inv.transferFails (h : Inv s) (hr : s.call r = some ⟨d,.transfer⟩) :
    Inv ((s.modDev d fun k => { k with failed := true }).callTo r (some ⟨d,.test⟩)) := by
  refine h.keeps (Keeps.modDev s d (fun k => { k with failed := true }) (fun _ => rfl) r _)
    (fun e hf => ?_) fun e hl hw he hready => ?_
  · by_cases hed : e = d
    · subst hed
      exact .inr (.inl (State.calls_callTo _ r e .test))
    · simp only [State.callTo, State.modDev, Function.update_of_ne hed] at hf ⊢
      rcases h.failed e hf with hready | hc | hc | hm
      · exact .inl hready
      · exact .inr (.inl (hc.ofPc rfl hr (by simp)))
      · exact .inr (.inr (.inl (hc.ofPc rfl hr (by simp))))
      · exact .inr (.inr (.inr hm))
  · have hready : (s.dev e).ready = false := by
      simp only [State.callTo, State.modDev] at hready
      by_cases hed : e = d
      · rw [hed, Function.update_self] at hready
        rw [hed]
        exact hready
      · rwa [Function.update_of_ne hed] at hready
    exact (hl hw he hready).imp_right fun hq => hq.imp_right fun hc => hc.ofPc rfl hr (by simp)

theorem Inv.runCall (h : Inv s) {c : Call n} (hr : s.call r = some c)
    (hs : s.runCall r c = some s') : Inv s' := by
  obtain ⟨d,p⟩ := c
  cases p with
  | transfer => cases hs
  | test =>
    simp only [State.runCall] at hs
    split at hs
    · cases hs
      refine h.keeps ⟨rfl,rfl,rfl,fun _ => rfl,rfl,rfl,rfl⟩ (fun e hf => ?_)
        fun e hl hw he hready => ?_
      · rcases h.failed e hf with hready | hc | hc | hm
        · exact .inl hready
        · by_cases hed : e = d
          · subst hed
            exact .inr (.inr (.inl (State.calls_callTo _ r e .clear)))
          · exact .inr (.inl (hc.ofDev rfl hr hed))
        · exact .inr (.inr (.inl (hc.ofPc rfl hr (by simp))))
        · exact .inr (.inr (.inr hm))
      · exact (hl hw he hready).imp_right fun hq => hq.imp_right fun hc =>
          hc.ofPc rfl hr (by simp)
    · rename_i hnr
      cases hs
      refine h.keeps ⟨rfl,rfl,rfl,fun _ => rfl,rfl,rfl,rfl⟩ (fun e hf => ?_)
        fun e hl hw he hready => ?_
      · rcases h.failed e hf with hready | hc | hc | hm
        · exact .inl hready
        · by_cases hed : e = d
          · subst hed
            exact .inl (Bool.not_eq_true _ ▸ hnr)
          · exact .inr (.inl (hc.ofDev rfl hr hed))
        · exact .inr (.inr (.inl (hc.ofPc rfl hr (by simp))))
        · exact .inr (.inr (.inr hm))
      · exact (hl hw he hready).imp_right fun hq => hq.imp_right fun hc =>
          hc.ofPc rfl hr (by simp)
  | clear =>
    cases hs
    refine h.keeps (Keeps.modDev s d (fun k => { k with ready := false }) (fun _ => rfl) r _)
      (fun e hf => ?_) fun e hl hw he hready => ?_
    · by_cases hed : e = d
      · refine .inl ?_
        simp [State.callTo, State.modDev, hed]
      · simp only [State.callTo, State.modDev, Function.update_of_ne hed] at hf ⊢
        rcases h.failed e hf with hready | hc | hc | hm
        · exact .inl hready
        · exact .inr (.inl (hc.ofDev rfl hr hed))
        · exact .inr (.inr (.inl (hc.ofDev rfl hr hed)))
        · exact .inr (.inr (.inr hm))
    · by_cases hed : e = d
      · subst hed
        exact .inr (.inr (State.calls_callTo _ r e .signal))
      · simp only [State.callTo, State.modDev, Function.update_of_ne hed] at hready
        exact (hl hw he hready).imp_right fun hq => hq.imp_right fun hc => hc.ofDev rfl hr hed
  | signal =>
    cases hs
    refine h.keeps ⟨rfl,rfl,rfl,fun _ => rfl,rfl,rfl,rfl⟩ (fun e hf => ?_)
      fun e hl hw he hready => .inr (.inl (Nat.succ_pos _))
    rcases h.failed e hf with hready | hc | hc | hm
    · exact .inl hready
    · exact .inr (.inl (hc.ofPc rfl hr (by simp)))
    · exact .inr (.inr (.inl (hc.ofPc rfl hr (by simp))))
    · exact .inr (.inr (.inr hm))

theorem Inv.exec (h : Inv s) {a : Label n ρ} (hs : s.exec a = some s') : Inv s' := by
  cases a with
  | begin r d =>
    simp only [State.exec, Option.ite_none_right_eq_some, Option.some.injEq,
      Option.isNone_iff_eq_none] at hs
    obtain ⟨hr,rfl⟩ := hs
    exact h.callTo fun x hx => by simp [hr] at hx
  | transfer r ok =>
    obtain ⟨c,hr,hs⟩ := Option.bind_eq_some_iff.mp hs
    obtain ⟨d,p⟩ := c
    cases p with
    | transfer =>
      simp only [State.transfer] at hs
      split at hs
      · cases hs
        exact h.callTo fun x hx => by simp [hr] at hx; simp [← hx]
      · cases hs
        exact h.transferFails hr
    | _ => cases hs
  | run r =>
    obtain ⟨c,hr,hs⟩ := Option.bind_eq_some_iff.mp hs
    exact h.runCall hr hs
  | check live => exact h.checkTerminal rfl hs
  | select found => exact h.select rfl hs
  | clock now => exact h.setClock rfl hs
  | pic => exact h.runPic rfl hs

theorem inv_reachable (hr : (system n ρ).Reachable s) : Inv s :=
  (system n ρ).invariant Inv (fun _ ⟨_,_,h⟩ => h ▸ inv_opened n ρ _ _) (fun _ _ _ hi hs => hi.exec hs) hr

/-- No failed transfer is forgotten: when the PIC waits in select, a device of a terminal
that is not skipped, with a failed transfer since its last interrupt and no call on it, is
in the set, or a signal ends the wait. -/
theorem failed_transfer_watched (n : Nat) (ρ : Type*) [DecidableEq ρ] (s : State n ρ)
    (hr : (system n ρ).Reachable s) (hpc : s.pic = .select) (d : Dev n)
    (hp : s.skipped d.1 = false) (hf : (s.dev d).failed = true)
    (hc : ∀ r c, s.call r = some c → c.dev≠d) : s.fds d = true ∨ 0 < s.queued := by
  have h := inv_reachable hr
  have hno : ∀ p, ¬s.Calls d p := fun p ⟨r,hr⟩ => hc r _ hr rfl
  have hready : (s.dev d).ready = false := by
    rcases h.failed d hf with hready | hc | hc | hm
    · exact hready
    · exact absurd hc (hno _)
    · exact absurd hc (hno _)
    · simp [hpc, PicPc.marks] at hm
  have hw : s.pic.watches = true := by simp [hpc, PicPc.watches]
  have hlooked : s.looked d = true := by
    obtain ⟨p,side⟩ := d
    rcases h.todo hw p (by simp [hpc, PicPc.todo]) with hk | ⟨hkbd,hcon⟩
    · rw [hp] at hk
      cases hk
    · cases side with
      | con => exact hcon
      | kbd => exact hkbd
  rcases h.looked hw d hlooked hready with hfd | hq | hc
  · exact .inl hfd
  · exact .inr hq
  · exact absurd hc (hno _)

theorem failed_transfer_watched_kbd : ∃ s : State 1 Unit, s.pic = .select ∧
    (s.dev (0,.kbd)).failed = true ∧ (s.fds (0,.kbd) = true ∨ 0 < s.queued) := by
  obtain ⟨s,hr,hpc,hp,hf,hc⟩ := (system 1 Unit).reaches
    (s := opened 1 Unit (fun _ => true) 0) ⟨_,_,rfl⟩
    [.begin () (0,.kbd),.transfer () false,.run (),.run (),.run (),.pic,.check true,.pic,.pic,.pic]
    (fun s => s.pic = .select ∧ s.skipped 0 = false ∧ (s.dev (0,.kbd)).failed = true ∧
      s.call () = none) (by decide)
  refine ⟨s,hpc,hf,failed_transfer_watched 1 Unit s hr hpc (0,.kbd) hp hf fun r c hrc => ?_⟩
  simp [hc] at hrc

/-- Each pass raises the interrupts of the devices that select has found, each once and in
the order of the terminals, and at its end no interrupt is older than SERIAL_TIMEOUT,
whatever the clock has done. -/
theorem pass_raises (n : Nat) (ρ : Type*) [DecidableEq ρ] (s : State n ρ)
    (hr : (system n ρ).Reachable s) (hpc : s.pic = .finish) :
    s.raised.Sublist (devices n) ∧ s.raised.Nodup ∧ ∀ d, (s.fds d = true → d∈s.raised) ∧
      (s.clock-(s.dev d).lastInt).toNat≤SERIAL_TIMEOUT := by
  obtain ⟨gone,hg,hs,hd⟩ := (inv_reachable hr).rest [] (by simp [hpc, PicPc.rest])
  rw [List.append_nil] at hg
  subst hg
  refine ⟨hs,hs.nodup (devices_nodup n),fun d => ?_⟩
  obtain ⟨hf,he⟩ := hd d (mem_devices d)
  refine ⟨hf,?_⟩
  rw [State.expired, decide_eq_false_iff_not] at he
  exact Nat.le_of_not_lt he

theorem pass_raises_kbd : ∃ s : State 1 Unit, s.pic = .finish ∧ (0,.kbd)∈s.raised := by
  obtain ⟨s,hr,hpc,hf⟩ := (system 1 Unit).reaches
    (s := opened 1 Unit (fun _ => false) 0) ⟨_,_,rfl⟩
    ([.pic,.check true,.pic,.pic,.pic,.select (some fun d => d.2 = .kbd),.clock 0]++
      List.replicate 7 .pic)
    (fun s => s.pic = .finish ∧ s.fds (0,.kbd) = true) (by decide)
  exact ⟨s,hpc,((pass_raises 1 Unit s hr hpc).2.2 (0,.kbd)).1 hf⟩

end

end TinyOS.Bios.Serial
