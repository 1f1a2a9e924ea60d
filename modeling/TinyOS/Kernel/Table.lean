import TinyOS.Kernel.Family
import Mathlib.Data.Fintype.Card
import Mathlib.Data.List.FinRange

/-! The invariant of the process table and the effect of each step of Exec, Exit and
WaitChild on it. -/
namespace TinyOS.Kernel
open RList

def FreeChain (PT : PcbRef → PCB) : Option PcbRef → List PcbRef → Prop
  | o, [] => o = none
  | o, p::l => o = some p ∧ FreeChain PT (PT p).parent l

theorem FreeChain.congr {PT PT' : PcbRef → PCB} {o : Option PcbRef} {l : List PcbRef}
    (hc : FreeChain PT o l) (h : ∀ p∈l, (PT' p).parent = (PT p).parent) : FreeChain PT' o l := by
  induction l generalizing o with
  | nil => exact hc
  | cons p l ih =>
    refine ⟨hc.1,?_⟩
    rw [h p (by simp)]
    exact ih hc.2 fun q hq => h q (by simp [hq])

/-- Free list, process count and family rings say the same as the states and parents. -/
structure Table (P : Procs) (L : Kin → List PcbRef) (fl : List PcbRef) : Prop where
  family : Family P.heap L
  chain : FreeChain P.PT P.pcbFreelist fl
  nodup : fl.Nodup
  free : ∀ p, p∈fl ↔ (P.PT p).pstate = .FREE
  count : P.processCount.toNat+fl.length = MAX_PROC
  children : ∀ p c, c∈L (.children p) ↔ (P.PT c).pstate≠.FREE ∧ (P.PT c).parent = some p
  exited : ∀ p c, c∈L (.exited p) ↔ (P.PT c).pstate = .ZOMBIE ∧ (P.PT c).parent = some p
  args : ∀ p, (P.PT p).pstate≠.ALIVE → (P.PT p).args = none

/-- Following the parents from a process leads to the init process, over live ones. -/
inductive Rooted (PT : PcbRef → PCB) : PcbRef → Prop where
  | init : Rooted PT initPid
  | step {c p : PcbRef} (hp : (PT c).parent = some p) (ha : (PT p).pstate = .ALIVE)
      (hr : Rooted PT p) : Rooted PT c

/-- The scheduler and the init process stay; all others descend from init. -/
structure Forest (PT : PcbRef → PCB) : Prop where
  root : ∀ p : PcbRef, p.val≤1 → (PT p).pstate≠.FREE ∧ (PT p).parent = none
  rooted : ∀ p : PcbRef, 1<p.val → (PT p).pstate≠.FREE → Rooted PT p

def exitedPCB (PT : PcbRef → PCB) (p : PcbRef) (v : Int) (c : PcbRef) : PCB :=
  if c = p then { PT p with pstate := .ZOMBIE, exitval := v, args := none }
  else if (PT c).pstate≠.FREE ∧ (PT c).parent = some p then { PT c with parent := some initPid }
  else PT c

theorem initPid_val : initPid.val = 1 := rfl

theorem Forest.parent {PT : PcbRef → PCB} (h : Forest PT) {p : PcbRef} (hp : 1<p.val)
    (hs : (PT p).pstate≠.FREE) : ∃ q, (PT p).parent = some q ∧ (PT q).pstate = .ALIVE := by
  cases h.rooted p hp hs with
  | init => exact absurd hp (by simp [initPid_val])
  | step hp ha _ => exact ⟨_,hp,ha⟩

namespace Table
variable {P : Procs} {L : Kin → List PcbRef} {fl : List PcbRef} {p c : PcbRef}

theorem not_mem_children (h : Table P L fl) (hc : (P.PT c).pstate = .FREE) (q : PcbRef) :
    c∉L (.children q) := fun hm => ((h.children q c).mp hm).1 hc

theorem not_mem_exited (h : Table P L fl) (hc : (P.PT c).pstate≠.ZOMBIE) (q : PcbRef) :
    c∉L (.exited q) := fun hm => hc ((h.exited q c).mp hm).1

theorem length_le (h : Table P L fl) (k : Kin) : (L k).length≤MAX_PROC := by
  simpa using (h.family.nodup k).length_le_card

theorem free_of_no_children (h : Table P L fl) (hf : Forest P.PT)
    (hn : L (.children initPid) = []) (hp : 1<p.val) : (P.PT p).pstate = .FREE := by
  by_contra hs
  have hroot : ∀ q, Rooted P.PT q → (P.PT q).pstate≠.FREE → q≠initPid → False := by
    intro q hq
    induction hq with
    | init => exact fun _ hne => hne rfl
    | @step c q hparent halive _ ih =>
      intro hc _
      by_cases hq : q = initPid
      · have hm := (h.children q c).mpr ⟨hc,hparent⟩
        rw [hq, hn] at hm
        simp at hm
      · exact ih (by simp [halive]) hq
  exact hroot p (hf.rooted p hp hs) hs (by rintro rfl; simp [initPid_val] at hp)

theorem acquire_nil (h : Table P L []) : acquirePCB P = (P,none) := by
  have hn : P.pcbFreelist = none := h.chain
  simp [acquirePCB, hn]

theorem acquire_cons (h : Table P L (p::fl)) :
    acquirePCB P = ({ P.modPCB p fun b => { b with pstate := .ALIVE } with
      pcbFreelist := (P.PT p).parent
      processCount := P.processCount+1 },some p) := by
  have hn : P.pcbFreelist = some p := h.chain.1
  simp [acquirePCB, hn]

theorem count_succ (h : Table P L (p::fl)) : (P.processCount+1).toNat+fl.length = MAX_PROC := by
  have hc := h.count
  simp only [List.length_cons, UInt32.toNat_add, UInt32.toNat_one, MAX_PROC] at hc ⊢
  omega

theorem exec (h : Table P L (p::fl)) (curproc : PcbRef) (argl : Nat) (args : Option (List UInt8)) :
    Table (copyArgs (inheritParent (acquirePCB P).1 curproc p) p argl args)
      (if p.val≤1 then L else Function.update L (.children curproc) (p::L (.children curproc)))
      fl := by
  have hfree : (P.PT p).pstate = .FREE := (h.free p).mp (by simp)
  obtain ⟨hp,hnodup⟩ := List.nodup_cons.mp h.nodup
  have hnc := h.not_mem_children hfree
  have hne := h.not_mem_exited (by simp [hfree] : (P.PT p).pstate≠.ZOMBIE)
  set P' := copyArgs (inheritParent (acquirePCB P).1 curproc p) p argl args with hP'
  have hPT : ∀ q, q≠p → P'.PT q = P.PT q := by
    intro q hq
    simp only [hP', copyArgs, inheritParent, h.acquire_cons]
    split <;> simp [Procs.modPCB, hq]
  have hPTp : (P'.PT p).pstate = .ALIVE ∧
      (P'.PT p).parent = if p.val≤1 then none else some curproc := by
    simp only [hP', copyArgs, inheritParent, h.acquire_cons]
    split <;> simp [Procs.modPCB]
  have hheap : P'.heap = if p.val≤1 then P.heap else
      rlistPushFront P.heap (.childrenList curproc) (.childrenNode p) := by
    simp only [hP', copyArgs, inheritParent, h.acquire_cons]
    split <;> rfl
  have hfl : P'.pcbFreelist = (P.PT p).parent ∧ P'.processCount = P.processCount+1 := by
    simp only [hP', copyArgs, inheritParent, h.acquire_cons]
    split <;> exact ⟨rfl,rfl⟩
  refine ⟨?_,?_,hnodup,?_,?_,?_,?_,?_⟩
  · rw [hheap]
    split
    · exact h.family
    · refine h.family.push_front (k := .children curproc) fun j hj => ?_
      cases j with
      | children q => exact hnc q
      | exited q => simp [kinNode] at hj
  · rw [hfl.1]
    exact h.chain.2.congr fun q hq => by rw [hPT q (fun he => hp (he ▸ hq))]
  · intro q
    by_cases hq : q = p
    · simp [hq, hp, hPTp.1]
    · rw [hPT q hq, ← h.free q]
      simp [hq]
  · rw [hfl.2]
    exact h.count_succ
  · intro q c
    have hold := h.children q c
    by_cases hc : c = p
    · subst hc
      rw [hPTp.1, hPTp.2]
      split
      · simp [hnc q]
      · by_cases hq : q = curproc
        · simp [hq]
        · simp [hq, hnc q, Ne.symm hq]
    · rw [hPT c hc, ← hold]
      split
      · rfl
      · by_cases hq : q = curproc <;> simp [hq, hc]
  · intro q c
    have hold := h.exited q c
    have hL : (if p.val≤1 then L else
        Function.update L (.children curproc) (p::L (.children curproc))) (.exited q) =
          L (.exited q) := by
      split <;> simp
    rw [hL]
    by_cases hc : c = p
    · subst hc
      simp [hPTp.1, hne q]
    · rw [hPT c hc, ← hold]
  · intro q hq
    by_cases hc : q = p
    · subst hc
      exact absurd hPTp.1 hq
    · rw [hPT q hc] at hq ⊢
      exact h.args q hq

theorem count_pred (h : Table P L fl) (hc : (P.PT c).pstate≠.FREE) :
    (P.processCount-1).toNat+(c::fl).length = MAX_PROC := by
  have hn := h.count
  have hlen : (c::fl).length≤MAX_PROC := by
    simpa using (List.nodup_cons.mpr ⟨fun hm => hc ((h.free c).mp hm),h.nodup⟩).length_le_card
  simp only [List.length_cons, UInt32.toNat_sub, UInt32.toNat_one, MAX_PROC] at hn hlen ⊢
  omega

theorem cleanup (h : Table P L fl) (hc : (P.PT c).pstate = .ZOMBIE)
    (hp : (P.PT c).parent = some p) (status : Bool) :
    Table (cleanupZombie P c status).1
      (Function.update (Function.update L (.children p) ((L (.children p)).erase c)) (.exited p)
        ((L (.exited p)).erase c)) (c::fl) := by
  have hmc : c∈L (.children p) := (h.children p c).mpr ⟨by simp [hc],hp⟩
  have hme : c∈L (.exited p) := (h.exited p c).mpr ⟨hc,hp⟩
  set P' := (cleanupZombie P c status).1 with hP'
  have hPT : ∀ q, q≠c → P'.PT q = P.PT q := by
    intro q hq
    simp [hP', cleanupZombie, releasePCB, Procs.modPCB, hq]
  have hPTc : (P'.PT c).pstate = .FREE ∧ (P'.PT c).parent = P.pcbFreelist ∧
      (P'.PT c).args = (P.PT c).args := by
    simp [hP', cleanupZombie, releasePCB, Procs.modPCB]
  have hfl : c∉fl := fun hm => by simpa [hc] using (h.free c).mp hm
  refine ⟨?_,?_,List.nodup_cons.mpr ⟨hfl,h.nodup⟩,?_,?_,?_,?_,?_⟩
  · have h1 := h.family.remove hmc
    have h2 := h1.remove (k := .exited p) (c := c) (by simpa using hme)
    rw [Function.update_of_ne (by simp)] at h2
    exact h2
  · refine ⟨rfl,?_⟩
    rw [hPTc.2.1]
    exact h.chain.congr fun q hq => by rw [hPT q (fun he => hfl (he ▸ hq))]
  · intro q
    by_cases hq : q = c
    · simp [hq, hPTc.1]
    · rw [hPT q hq, ← h.free q]
      simp [hq]
  · exact h.count_pred (by simp [hc])
  · intro q d
    have hold := h.children q d
    have hn := h.family.nodup (.children p)
    by_cases hd : d = c
    · subst hd
      simp only [hPTc.1, ne_eq, not_true_eq_false, false_and, iff_false]
      by_cases hq : q = p
      · subst hq
        simp [hn.mem_erase_iff]
      · simp only [ne_eq, reduceCtorEq, not_false_eq_true, Function.update_of_ne,
          Kin.children.injEq,
          hq]
        rw [hold, hp]
        simp [Ne.symm hq]
    · rw [hPT d hd, ← hold]
      by_cases hq : q = p
      · subst hq
        simp [hn.mem_erase_iff, hd]
      · simp [hq]
  · intro q d
    have hold := h.exited q d
    have hn := h.family.nodup (.exited p)
    by_cases hd : d = c
    · subst hd
      simp only [hPTc.1, reduceCtorEq, false_and, iff_false]
      by_cases hq : q = p
      · subst hq
        simp [hn.mem_erase_iff]
      · simp only [ne_eq, not_false_eq_true, Function.update_of_ne, Kin.exited.injEq, hq,
          reduceCtorEq]
        rw [hold, hp]
        simp [Ne.symm hq]
    · rw [hPT d hd, ← hold]
      by_cases hq : q = p
      · subst hq
        simp [hn.mem_erase_iff, hd]
      · simp [hq]
  · intro q hq
    by_cases hqc : q = c
    · subst hqc
      rw [hPTc.2.2]
      exact h.args q (by simp [hc])
    · rw [hPT q hqc] at hq ⊢
      exact h.args q hq

theorem reparent_family {init : PcbRef} (hpi : p≠init) {l : List PcbRef} {fuel : Nat}
    (hf : Family P.heap L) (hl : L (.children p) = l) (hfuel : l.length<fuel) :
    ∃ P', reparent (some init) p fuel P = some P' ∧
      Family P'.heap (Function.update (Function.update L (.children p) []) (.children init)
        (l.reverse++L (.children init))) ∧
      P'.pcbFreelist = P.pcbFreelist ∧ P'.processCount = P.processCount ∧
      ∀ c, P'.PT c = if c∈l then { P.PT c with parent := some init } else P.PT c := by
  induction l generalizing fuel P L with
  | nil =>
    obtain ⟨fuel,rfl⟩ : ∃ n, fuel = n+1 := ⟨fuel-1,by simp at hfuel; omega⟩
    refine ⟨P,by simp [reparent, hf.isEmpty_children, hl],?_,rfl,rfl,by simp⟩
    have hL : Function.update L (.children p) [] = L := by rw [← hl, Function.update_eq_self]
    simpa [hL] using hf
  | cons c l ih =>
    obtain ⟨fuel,rfl⟩ : ∃ n, fuel = n+1 := ⟨fuel-1,by simp at hfuel; omega⟩
    obtain ⟨hx,hpop⟩ := hf.pop_front hl
    have hn := hf.nodup (.children p)
    rw [hl, List.nodup_cons] at hn
    have hother : ∀ j, kinNode j c = kinNode (.children init) c →
        c∉Function.update L (.children p) l j := by
      intro j hj hm
      by_cases hjp : j = .children p
      · subst hjp
        exact hn.1 (by simpa using hm)
      · rw [Function.update_of_ne hjp] at hm
        exact hjp (hf.disjoint hm (by simp [hl] : c∈L (.children p)) (by simpa [kinNode] using hj))
    have hpush := hpop.push_front hother
    set P1 : Procs := { P.modPCB c fun b => { b with parent := some init } with
      heap := rlistPushFront (rlistPopFront P.heap (.childrenList p)).1 (.childrenList init)
        (.childrenNode c) } with hP1
    obtain ⟨P',hrun,hfam,hfl,hcount,hPT⟩ := ih (P := P1) hpush
      (by simp [hpi]) (by simpa using hfuel : l.length<fuel)
    refine ⟨P',?_,?_,hfl,hcount,?_⟩
    · have hkey : (rlistPopFront P.heap (.childrenList p)).1.key
          (rlistPopFront P.heap (.childrenList p)).2 = some c := by
        have hx' : (rlistPopFront P.heap (.childrenList p)).2 = .childrenNode c := hx
        rw [hx']
        exact congrFun hf.key _
      rw [reparent, hf.isEmpty_children]
      simp only [hl, reduceCtorEq, decide_false, Bool.false_eq_true, if_false, hkey]
      rw [← hrun, hP1]
      congr 3
    · convert hfam using 1
      funext k
      by_cases h1 : k = .children init
      · subst h1
        simp [Ne.symm hpi]
      · by_cases h2 : k = .children p <;> simp [h1, h2, hpi]
    · intro d
      rw [hPT]
      by_cases hd : d = c
      · subst hd
        simp [hP1, Procs.modPCB]
      · simp [hP1, Procs.modPCB, hd]

/-- Exit of a process with a parent: its children go to init and itself to its parent. -/
theorem exit {q : PcbRef} {fuel : Nat} (h : Table P L fl) (hp : (P.PT p).pstate = .ALIVE)
    (hpi : p≠initPid) (hq : (P.PT p).parent = some q) (hqp : q≠p) (v : Int)
    (hfuel : MAX_PROC<fuel) :
    ∃ P2, reparent (some initPid) p fuel (P.modPCB p fun b => { b with args := none }) = some P2 ∧
      (P2.PT p).parent = some q ∧
      isRlistEmpty P2.heap (.exitedList p) = decide (L (.exited p) = []) ∧
      ∀ P3, P3 = (if L (.exited p) = [] then P2 else handOver P2 initPid p) →
        (P3.PT p).parent = some q ∧
        (∃ L', Table (markZombie (reportExit P3 q p) p v) L' fl) ∧
        ∀ c, (markZombie (reportExit P3 q p) p v).PT c = exitedPCB P.PT p v c := by
  have hpc : p∉L (.children p) := fun hm => by
    have := ((h.children p p).mp hm).2
    rw [hq] at this
    exact hqp (by simpa using this)
  set P1 := P.modPCB p fun b => { b with args := none } with hP1
  have hf1 : Family P1.heap L := h.family
  obtain ⟨P2,hrun,hfam2,hfl2,hcount2,hPT2⟩ := reparent_family hpi hf1 rfl
    (Nat.lt_of_le_of_lt (h.length_le (.children p)) hfuel)
  have hp2 : P2.PT p = { P.PT p with args := none } := by
    rw [hPT2, if_neg hpc]
    simp [hP1, Procs.modPCB]
  have hother2 : ∀ c, c≠p → P2.PT c =
      if c∈L (.children p) then { P.PT c with parent := some initPid } else P.PT c := by
    intro c hc
    rw [hPT2]
    simp [hP1, Procs.modPCB, hc]
  refine ⟨P2,hrun,by rw [hp2]; exact hq,by rw [hfam2.isEmpty_exited]; simp,?_⟩
  rintro P3 rfl
  set L2 := Function.update (Function.update L (.children p) []) (.children initPid)
    ((L (.children p)).reverse++L (.children initPid)) with hL2
  set L3 := Function.update (Function.update L2 (.exited initPid)
    (L (.exited initPid)++L (.exited p)))
    (.exited p) [] with hL3
  set P3 := if L (.exited p) = [] then P2 else handOver P2 initPid p with hP3
  have hf3 : Family P3.heap L3 := by
    rw [hP3, hL3]
    split
    · rename_i he
      have hi : L2 (.exited initPid) = L (.exited initPid)++L (.exited p) := by simp [hL2, he]
      have hpe : L2 (.exited p) = [] := by simp [hL2, he]
      rw [← hi, Function.update_eq_self, ← hpe, Function.update_eq_self]
      exact hfam2
    · have := hfam2.append (Ne.symm hpi)
      simpa [hL2, handOver] using this
  have h3 : P3.PT = P2.PT ∧ P3.pcbFreelist = P2.pcbFreelist ∧
    P3.processCount = P2.processCount := by
    rw [hP3]
    split <;> simp [handOver]
  have hpz : ∀ r, p∉L (.exited r) := h.not_mem_exited (by simp [hp])
  have hf4 := hf3.push_front (k := .exited q) (c := p) (by
    intro j hj
    cases j with
    | children r => simp [kinNode] at hj
    | exited r =>
      simp only [hL3, hL2]
      by_cases h1 : r = p
      · simp [h1]
      · by_cases h2 : r = initPid <;> simp [h1, h2, hpz, Ne.symm hpi])
  set P5 := markZombie (reportExit P3 q p) p v with hP5
  have hPT5 : ∀ c, P5.PT c = exitedPCB P.PT p v c := by
    intro c
    by_cases hc : c = p
    · subst hc
      simp [hP5, markZombie, reportExit, Procs.modPCB, exitedPCB, h3.1, hp2]
    · have hm := h.children p c
      simp only [hP5, markZombie, reportExit, Procs.modPCB, h3.1, exitedPCB, hc, if_false, ne_eq,
        not_false_eq_true, Function.update_of_ne, hother2 c hc, hm]
  refine ⟨by rw [h3.1, hp2]; exact hq,⟨_,hf4,?_,h.nodup,?_,?_,?_,?_,?_⟩,hPT5⟩
  · have hflist : P5.pcbFreelist = P.pcbFreelist := by
      rw [show P5.pcbFreelist = P3.pcbFreelist from rfl, h3.2.1, hfl2]
      rfl
    rw [hflist]
    refine h.chain.congr fun c hc => ?_
    have hfree := (h.free c).mp hc
    have hcp : c≠p := by
      rintro rfl
      simp [hp] at hfree
    rw [hPT5, exitedPCB, if_neg hcp, if_neg (by simp [hfree])]
  · intro c
    rw [h.free c, hPT5, exitedPCB]
    split
    · rename_i hc
      simp [hc, hp]
    · split <;> rfl
  · have hcnt : P5.processCount = P.processCount := by
      rw [show P5.processCount = P3.processCount from rfl, h3.2.2, hcount2]
      rfl
    rw [hcnt]
    exact h.count
  · intro r c
    have hmem : c∈Function.update L3 (.exited q) (p::L3 (.exited q)) (.children r) ↔
        r = initPid ∧ (c∈L (.children p) ∨ c∈L (.children initPid)) ∨
          r≠initPid ∧ r≠p ∧ c∈L (.children r) := by
      by_cases hr : r = initPid
      · simp [hL3, hL2, hr]
      · by_cases hrp : r = p
        · subst hrp
          simp [hL3, hL2, hr]
        · simp [hL3, hL2, hr, hrp]
    rw [hmem, hPT5, exitedPCB]
    simp only [h.children]
    by_cases hcp : c = p
    · subst hcp
      simp [hp, hq]
      grind
    · simp only [hcp, if_false]
      split <;> grind
  · intro r c
    have hmem : c∈Function.update L3 (.exited q) (p::L3 (.exited q)) (.exited r) ↔
        r = q ∧ c = p ∨ r = initPid ∧ (c∈L (.exited p) ∨ c∈L (.exited initPid)) ∨
          r≠initPid ∧ r≠p ∧ c∈L (.exited r) := by
      have hmem3 : c∈L3 (.exited r) ↔ r = initPid ∧ (c∈L (.exited p) ∨ c∈L (.exited initPid)) ∨
          r≠initPid ∧ r≠p ∧ c∈L (.exited r) := by
        by_cases hrp : r = p
        · subst hrp
          simp [hL3, hpi]
        · by_cases hr : r = initPid
          · simp [hL3, hr, Ne.symm hpi, or_comm]
          · simp [hL3, hL2, hr, hrp]
      rw [← hmem3]
      by_cases hr : r = q
      · subst hr
        simp
      · simp [hr]
    rw [hmem, hPT5, exitedPCB]
    simp only [h.exited]
    by_cases hcp : c = p
    · subst hcp
      simp [hp, hq, eq_comm]
    · simp only [hcp, if_false]
      split <;> grind
  · intro c
    rw [hPT5, exitedPCB]
    split
    · simp
    · split <;> exact h.args c

theorem exit_init {fuel : Nat} (h : Table P L fl) (hi : (P.PT initPid).pstate = .ALIVE)
    (hpar : (P.PT initPid).parent = none) (hn : L (.children initPid) = []) (v : Int)
    (hfuel : 0<fuel) {P1 : Procs}
    (hP1 : P1 = P.modPCB initPid fun b => { b with args := none }) :
    reparent (some initPid) initPid fuel P1 = some P1 ∧
      isRlistEmpty P1.heap (.exitedList initPid) = true ∧ Table (markZombie P1 initPid v) L fl ∧
      ∀ c, (markZombie P1 initPid v).PT c = exitedPCB P.PT initPid v c := by
  obtain ⟨fuel,rfl⟩ : ∃ n, fuel = n+1 := ⟨fuel-1,by omega⟩
  have hnone : ∀ c, ¬((P.PT c).pstate≠.FREE ∧ (P.PT c).parent = some initPid) := fun c hc => by
    have := (h.children initPid c).mpr hc
    simp [hn] at this
  have hexited : L (.exited initPid) = [] := by
    refine List.eq_nil_iff_forall_not_mem.mpr fun c hc => ?_
    obtain ⟨hz,hp⟩ := (h.exited initPid c).mp hc
    exact hnone c ⟨by simp [hz],hp⟩
  have hf : Family P1.heap L := by
    rw [hP1]
    exact h.family
  have hPT : ∀ c, (markZombie P1 initPid v).PT c = exitedPCB P.PT initPid v c := by
    intro c
    by_cases hc : c = initPid
    · simp [hP1, markZombie, Procs.modPCB, exitedPCB, hc]
    · simp [hP1, markZombie, Procs.modPCB, exitedPCB, hc, if_neg (hnone c)]
  have hother : ∀ c, c≠initPid → (markZombie P1 initPid v).PT c = P.PT c := by
    intro c hc
    rw [hPT, exitedPCB, if_neg hc, if_neg (hnone c)]
  have hself : (markZombie P1 initPid v).PT initPid =
      { P.PT initPid with pstate := .ZOMBIE, exitval := v, args := none } := by
    rw [hPT, exitedPCB, if_pos rfl]
  have hroot : ∀ c, (markZombie P1 initPid v).PT c = P.PT c ∨ c = initPid := by
    intro c
    by_cases hc : c = initPid
    · exact Or.inr hc
    · exact Or.inl (hother c hc)
  refine ⟨by simp [reparent, hf.isEmpty_children, hn],by simp [hf.isEmpty_exited, hexited],
    ⟨hf,?_,h.nodup,?_,?_,?_,?_,?_⟩,hPT⟩
  · have hfl : (markZombie P1 initPid v).pcbFreelist = P.pcbFreelist := by
      rw [hP1]
      rfl
    rw [hfl]
    refine h.chain.congr fun c hc => ?_
    rcases hroot c with he | rfl
    · rw [he]
    · exact absurd ((h.free _).mp hc) (by simp [hi])
  · intro c
    rw [h.free c]
    rcases hroot c with he | rfl
    · rw [he]
    · simp [hself, hi]
  · rw [hP1]
    exact h.count
  · intro r c
    rw [h.children r c]
    rcases hroot c with he | rfl
    · rw [he]
    · simp [hself, hi]
  · intro r c
    rw [h.exited r c]
    rcases hroot c with he | rfl
    · rw [he]
    · simp [hself, hpar]
  · intro c
    rcases hroot c with he | rfl
    · rw [he]
      exact h.args c
    · simp [hself]

end Table

theorem Rooted.congr {PT PT' : PcbRef → PCB} {c : PcbRef} (hr : Rooted PT c)
    (ha : ∀ q, (PT q).pstate = .ALIVE → PT' q = PT q) (hc : PT' c = PT c) : Rooted PT' c := by
  induction hr with
  | init => exact .init
  | @step c p hp halive _ ih =>
    have hpp := ha p halive
    exact .step (hc ▸ hp) (hpp ▸ halive) (ih hpp)

theorem Rooted.parent_ne {PT : PcbRef → PCB} {c : PcbRef} (hr : Rooted PT c) (hc : c≠initPid)
    {q : PcbRef} (hq : (PT c).parent = some q) : q≠c := by
  induction hr generalizing q with
  | init => exact absurd rfl hc
  | @step c p hp _ _ ih =>
    rintro rfl
    rw [hp] at hq
    cases hq
    exact ih hc hp rfl

namespace Forest
variable {PT PT' : PcbRef → PCB} {p c : PcbRef}

theorem exec (h : Forest PT) (hp : 1<p.val) (hfree : (PT p).pstate = .FREE)
    (hc : Rooted PT c) (ha : (PT c).pstate = .ALIVE) (hPT : ∀ q, q≠p → PT' q = PT q)
    (hpar : (PT' p).parent = some c) : Forest PT' := by
  have halive : ∀ q, (PT q).pstate = .ALIVE → PT' q = PT q := by
    intro q hq
    refine hPT q ?_
    rintro rfl
    simp [hfree] at hq
  constructor
  · intro q hq
    rw [hPT q (by rintro rfl; omega)]
    exact h.root q hq
  · intro q hq hs
    by_cases hqp : q = p
    · subst hqp
      have hcc := halive c ha
      exact .step hpar (hcc ▸ ha) (hc.congr halive hcc)
    · rw [hPT q hqp] at hs
      exact (h.rooted q hq hs).congr halive (hPT q hqp)

theorem cleanup (h : Forest PT) (hz : (PT c).pstate = .ZOMBIE) (hpar : (PT c).parent≠none)
    (hPT : ∀ q, q≠c → PT' q = PT q) (hfree : (PT' c).pstate = .FREE) : Forest PT' := by
  have halive : ∀ q, (PT q).pstate = .ALIVE → PT' q = PT q := by
    intro q hq
    refine hPT q ?_
    rintro rfl
    simp [hz] at hq
  constructor
  · intro q hq
    have hr := h.root q hq
    rw [hPT q (by rintro rfl; exact hpar hr.2)]
    exact hr
  · intro q hq hs
    have hqc : q≠c := by
      rintro rfl
      exact hs hfree
    rw [hPT q hqc] at hs
    exact (h.rooted q hq hs).congr halive (hPT q hqc)

theorem exit (h : Forest PT) (hp : (PT p).pstate = .ALIVE) (v : Int)
    (hi : p≠initPid → (PT initPid).pstate = .ALIVE)
    (hn : p = initPid → ∀ q : PcbRef, 1<q.val → (PT q).pstate = .FREE) :
    Forest (exitedPCB PT p v) := by
  have hstate : ∀ q, (exitedPCB PT p v q).pstate≠.FREE ↔ (PT q).pstate≠.FREE := by
    intro q
    simp only [exitedPCB]
    split
    · rename_i hq
      simp [hq, hp]
    · split <;> rfl
  constructor
  · intro q hq
    have hr := h.root q hq
    refine ⟨(hstate q).mpr hr.1,?_⟩
    simp only [exitedPCB]
    split
    · rename_i hqp
      exact hqp ▸ hr.2
    · simp [hr.2]
  · intro q hq hs
    rw [hstate] at hs
    by_cases hpi : p = initPid
    · exact absurd (hn hpi q hq) hs
    have halive : (exitedPCB PT p v initPid).pstate = .ALIVE := by
      rw [exitedPCB, if_neg (Ne.symm hpi)]
      split <;> exact hi hpi
    have hroot : ∀ r, Rooted PT r → (PT r).pstate≠.FREE → Rooted (exitedPCB PT p v) r := by
      intro r hr
      induction hr with
      | init => exact fun _ => .init
      | @step c q hpar hqa hq ih =>
        intro hc
        by_cases hcp : c = p
        · subst hcp
          have hqc : q≠c := (h.rooted c (by
            have := h.root c
            by_contra hle
            rw [(this (by omega)).2] at hpar
            cases hpar) hc).parent_ne hpi hpar
          have hq' : (exitedPCB PT c v q).pstate = .ALIVE := by
            rw [exitedPCB, if_neg hqc]
            split <;> exact hqa
          exact .step (by simp [exitedPCB, hpar]) hq' (ih (by simp [hqa]))
        · by_cases hqp : q = p
          · subst hqp
            exact .step (p := initPid) (by simp [exitedPCB, hcp, hc, hpar]) halive .init
          · have hq' : (exitedPCB PT p v q).pstate = .ALIVE := by
              rw [exitedPCB, if_neg hqp]
              split <;> exact hqa
            exact .step (by simp [exitedPCB, hcp, hpar, hqp]) hq' (ih (by simp [hqa]))
    exact hroot q (h.rooted q hq hs) hs

end Forest
end TinyOS.Kernel
