import TinyOS.Kernel.Tasked
import Mathlib.Algebra.Order.BigOperators.Group.Finset
import Mathlib.Algebra.Group.Action.Defs
import Mathlib.Logic.Relation

/-! No system call fails, no circle of processes waits for each other, and once all
threads exit the kernel is left empty. -/
namespace TinyOS.Kernel
open RList Tally Transition

section
variable {s s' : State} {L : Kin → List PcbRef} {fl : List PcbRef} {p : PcbRef}

/-! The calls that come back. -/

/-- tinyos_pseudo_console aborts without fids 0 and 1 and two FCBs, and serial_write polls a
port that never takes the first byte for ever. -/
def Returns (s : State) : Label → Prop
  | .console p => s.files.FIDT p 0 = none ∧ s.files.FIDT p 1 = none ∧
      ∃ f g, f≠g ∧ s.refs f = 0 ∧ s.refs g = 0
  | .write p fd size fuel _ accept => ∀ f, getFcb s.files p fd = some f →
      (s.files.FT f).streamfunc = some .serial → serialWrite accept size fuel 0 0≠none
  | _ => True

theorem emptyFids_console {T : Fid → Option FcbRef} :
    findFids T 2 0 = [0,1] ↔ T 0 = none ∧ T 1 = none := by
  constructor
  · intro h
    have hfree := (findFids_spec T 2 0).1
    rw [h] at hfree
    exact ⟨(hfree 0 (by simp)).1,(hfree 1 (by simp)).1⟩
  · rintro ⟨h0,h1⟩
    have hcons : List.finRange MAX_FILEID = 0::1::(List.finRange MAX_FILEID).drop 2 := by decide
    rw [findFids_zero, emptyFids, hcons, List.filter_cons_of_pos (by simp [h0]),
      List.filter_cons_of_pos (by simp [h1])]
    rfl

theorem two_free {R : FcbRef → Nat} {ffl : List FcbRef} (hn : ffl.Nodup)
    (hfree : ∀ f, f∈ffl ↔ R f = 0) : 2≤ffl.length ↔ ∃ f g, f≠g ∧ R f = 0 ∧ R g = 0 := by
  constructor
  · intro hlen
    match ffl, hn, hlen with
    | f::g::ffl, hn, _ =>
      refine ⟨f,g,?_,(hfree f).mp (by simp),(hfree g).mp (by simp)⟩
      rintro rfl
      simp at hn
  · rintro ⟨f,g,hfg,hf,hg⟩
    have hsub : [f,g].Subperm ffl := List.subperm_of_subset (by simp [hfg]) (by
      intro x hx
      simp only [List.mem_cons, List.not_mem_nil, or_false] at hx
      cases hx with
      | inl hx => exact hx ▸ (hfree f).mpr hf
      | inr hx => exact hx ▸ (hfree g).mpr hg)
    exact hsub.length_le

theorem pseudoConsole_returns (h : Inv s L fl) (p : PcbRef) :
    pseudoConsole s.files p≠none ↔ Returns s (.console p) := by
  obtain ⟨ffl,hc⟩ := h.files
  have htwo : (∃ f g, f≠g ∧ s.refs f = 0 ∧ s.refs g = 0) ↔ 2≤ffl.length :=
    (two_free hc.ring.nodup hc.free).symm
  rw [Returns, ← and_assoc, ← emptyFids_console, htwo]
  by_cases hfail : (findFids (s.files.FIDT p) 2 0).length<2 ∨ ffl.length<2
  · obtain ⟨F,fl',hres,-⟩ := reserve_fail hc.ring hfail
    simp only [pseudoConsole, hres, Option.bind_some, ne_eq, not_true_eq_false, false_iff, not_and]
    intro hfids
    rw [hfids] at hfail
    simpa using hfail
  · obtain ⟨hfid,hlen⟩ := not_or.mp hfail
    obtain ⟨F,hres,-⟩ := reserve_ok (p := p) hc.ring hfid (by omega)
    obtain ⟨f,l,rfl⟩ : ∃ f l, ffl = f::l := List.exists_cons_of_length_pos (by omega)
    obtain ⟨g,l,rfl⟩ : ∃ g l', l = g::l' :=
      List.exists_cons_of_length_pos (by simp only [List.length_cons] at hlen; omega)
    simp only [pseudoConsole, hres, Option.bind_some, List.take_succ_cons, List.take_zero]
    constructor
    · intro hsome
      refine ⟨?_,by simp⟩
      split at hsome
      · rename_i F2 i o he
        simp only [Prod.mk.injEq, Option.some.injEq] at he
        exact he.2.1
      · exact absurd rfl hsome
    · rintro ⟨hfids,-⟩
      rw [hfids]
      exact Option.some_ne_none _

theorem devread_returns {f : FcbRef} {o : Option Nat} {size inp : Nat} {valid : Nat → Bool}
    {ops : FileOps} {F : Files} (hdec : decref s.files f = some (F,0))
    (ho : ops = .serial → o≠none) : devread s p f o size inp valid ops≠none := by
  have hfin : ∀ count, finishRead s f count≠none := by
    intro count
    simp only [finishRead, hdec, Option.map_some, ne_eq, reduceCtorEq, not_false_eq_true]
  cases ops with
  | nulldev => exact hfin size
  | stdio => exact hfin (min inp size)
  | serial =>
    obtain ⟨port,hport⟩ := Option.ne_none_iff_exists'.mp (ho rfl)
    rw [hport, devread, Option.bind_some]
    split
    · exact Option.some_ne_none _
    · exact hfin _

theorem sysRead_returns (h : Inv s L fl) (ho : Online s) (fd : Int) (size inp : Nat)
    (valid : Nat → Bool) : sysRead s p fd size inp valid≠none := by
  unfold sysRead
  cases hg : getFcb s.files p fd with
  | none => exact Option.some_ne_none _
  | some f =>
    obtain ⟨fid,hslot,-⟩ := getFcb_some hg
    have hpos : 0<refs s.files (inflight s.thread) f := refs_pos hslot
    obtain ⟨ffl,hc⟩ := h.files
    obtain ⟨ops,hops⟩ := Option.ne_none_iff_exists'.mp (hc.stream f hpos)
    obtain ⟨F,hdec,-,-⟩ := h.files.hold_drop (inflight_le _) hpos
    simp only [hops, Option.bind_some]
    refine devread_returns (s := { s with files := incref s.files f }) hdec fun hs => ?_
    obtain ⟨i,-,hi⟩ := ho.attached f (hs ▸ hops)
    rw [hi]
    exact Option.some_ne_none i

theorem resume_returns (h : Inv s L fl) (hp : s.thread p≠none) (hu : s.thread p≠some .user)
    (hs : s.stopped p = false) (valid : Nat → Bool) : resume s p valid≠none := by
  obtain ⟨t,ht⟩ := Option.ne_none_iff_exists'.mp hp
  cases t with
  | user => exact absurd ht hu
  | reading f port size =>
    rw [resume, ht, Option.bind_some, resumeFrom]
    have huser : (s.setThread p (some .user)).thread p = some .user := by simp [State.setThread]
    have hback : Function.update (s.setThread p (some .user)).thread p
        (some (.reading f port size)) = s.thread := by
      simp [State.setThread, ← ht]
    have hok := h.files
    rw [← hback, inflight_reading (t := .reading f port size) huser rfl] at hok
    obtain ⟨F,hdec,-,-⟩ := hok.drop
    have hread : devread (s.setThread p (some .user)) p f (some port) size 0 valid .serial≠none :=
      devread_returns hdec fun _ => Option.some_ne_none _
    simpa using hread
  | waitChild c status =>
    obtain ⟨s1,hs1,-⟩ := resume_wait_kept h ht rfl hs valid
    exact hs1 ▸ Option.some_ne_none s1
  | waitAny status =>
    obtain ⟨s1,hs1,-⟩ := resume_wait_kept h ht rfl hs valid
    exact hs1 ▸ Option.some_ne_none s1
  | exitWait v =>
    obtain ⟨s1,hs1,-⟩ := resume_wait_kept h ht rfl hs valid
    exact hs1 ▸ Option.some_ne_none s1

theorem sysWrite_returns (h : Inv s L fl) (fd : Int) (size fuel out : Nat)
    (accept : Nat → Bool) : sysWrite s.files p fd size fuel out accept≠none ↔
      Returns s (.write p fd size fuel out accept) := by
  unfold sysWrite Returns
  cases hg : getFcb s.files p fd with
  | none => simp [hg]
  | some f =>
    obtain ⟨fid,hslot,-⟩ := getFcb_some hg
    have hpos : 0<refs s.files (inflight s.thread) f := refs_pos hslot
    obtain ⟨ffl,hc⟩ := h.files
    obtain ⟨ops,hops⟩ := Option.ne_none_iff_exists'.mp (hc.stream f hpos)
    obtain ⟨F,hdec,-,-⟩ := h.files.hold_drop (inflight_le _) hpos
    cases ops with
    | nulldev => simp [hg, hops, FileOps.write, hdec]
    | stdio => simp [hg, hops, FileOps.write, hdec]
    | serial => simpa [hg, hops, FileOps.write, hdec] using Option.ne_none_iff_exists'.symm

theorem serialWrite_taken (accept : Nat → Bool) {size fuel count : Nat} (poll : Nat)
    (hcount : 0 < count) (hfuel : size-count < fuel) :
    serialWrite accept size fuel poll count≠none := by
  induction fuel generalizing poll count with
  | zero => cases hfuel
  | succ fuel ih =>
    rw [serialWrite]
    split
    · split
      · exact ih (poll+1) (by omega) (by omega)
      · rw [if_neg (by omega)]
        exact Option.some_ne_none _
    · exact Option.some_ne_none _

theorem serialWrite_starts {accept : Nat → Bool} (size : Nat) (wait : Nat) {poll : Nat}
    (ha : accept (poll+wait) = true) : serialWrite accept size (wait+size+1) poll 0≠none := by
  induction wait generalizing poll with
  | zero =>
    rw [serialWrite]
    split
    · rw [if_pos (show accept poll = true from ha)]
      exact serialWrite_taken accept (poll+1) (by omega) (by omega)
    · exact Option.some_ne_none _
  | succ wait ih =>
    rw [show wait+1+size+1 = (wait+size+1)+1 by omega, serialWrite]
    split
    · split
      · exact serialWrite_taken accept (poll+1) (by omega) (by omega)
      · rw [if_pos rfl]
        exact ih (by rwa [Nat.add_right_comm, Nat.add_assoc])
    · exact Option.some_ne_none _

theorem serialWrite_refused {accept : Nat → Bool} {size : Nat} (hsize : size≠0)
    (ha : ∀ k, accept k = false) (fuel poll : Nat) : serialWrite accept size fuel poll 0 = none := by
  induction fuel generalizing poll with
  | zero => rfl
  | succ fuel ih =>
    rw [serialWrite, if_pos (by omega), if_neg (by simp [ha]), if_pos rfl]
    exact ih (poll+1)

theorem serialWrite_returns (accept : Nat → Bool) (size : Nat) :
    (∃ fuel, serialWrite accept size fuel 0 0≠none) ↔ size = 0 ∨ ∃ k, accept k = true := by
  constructor
  · rintro ⟨fuel,hw⟩
    by_contra hn
    obtain ⟨hsize,ha⟩ := not_or.mp hn
    exact hw (serialWrite_refused hsize (by simpa using ha) fuel 0)
  · rintro (rfl | ⟨k,hk⟩)
    · exact ⟨1,by simp [serialWrite]⟩
    · exact ⟨k+size+1,serialWrite_starts size k (by rwa [Nat.zero_add])⟩

theorem next_returns (h : Inv s L fl) (ho : Online s) {a : Label} (ha : Enabled s a) :
    system.next s a≠none ↔ Returns s a := by
  rw [system_next ha]
  cases a with
  | exec p call argl args => simp [step, Returns]
  | exit p v =>
    obtain ⟨s1,hs1,-⟩ := sysExit_kept h ha v
    simp [step, Returns, hs1]
  | waitChild p cpid status =>
    obtain ⟨s1,L1,fl1,hs1,-,-⟩ := sysWaitChild_inv h ha cpid status
    simp [step, Returns, hs1]
  | openNull p =>
    obtain ⟨r,hr,-⟩ := h.files.openStream p s.serialPorts .DEV_NULL 0
    simp [step, Returns, State.withFiles, hr]
  | openTerminal p termno =>
    obtain ⟨r,hr,-⟩ := h.files.openStream p s.serialPorts .DEV_SERIAL termno
    simp [step, Returns, State.withFiles, hr]
  | console p =>
    rw [← pseudoConsole_returns h p]
    simp [step]
  | close p fd =>
    obtain ⟨r,hr,-⟩ := h.files.sysClose p fd
    simp [step, Returns, State.withFiles, hr]
  | dup2 p oldfd newfd =>
    obtain ⟨r,hr,-⟩ := h.files.sysDup2 (inflight_le _) p oldfd newfd
    simp [step, Returns, State.withFiles, hr]
  | read p fd size inp valid =>
    have hread := sysRead_returns (p := p) h ho fd size inp valid
    simpa [step, Returns] using hread
  | write p fd size fuel out accept =>
    rw [← sysWrite_returns h fd size fuel out accept]
    simp [step, State.withFiles]
  | resume p valid =>
    obtain ⟨hp,hu,hs⟩ := ha
    simpa [step, Returns] using resume_returns h hp hu hs valid
  | serialRx => simp [step, Returns]
  | releaseTCB => simp [step, Returns]

/-! Who waits for whom. -/

def ChildOf (PT : PcbRef → PCB) (c q : PcbRef) : Prop :=
  (PT c).pstate≠.FREE ∧ (PT c).parent = some q

def Descends (PT : PcbRef → PCB) : PcbRef → PcbRef → Prop := Relation.TransGen (ChildOf PT)

theorem Rooted.acyclic {PT : PcbRef → PCB} {c : PcbRef} (hf : Forest PT) (hr : Rooted PT c) :
    ¬Descends PT c c := by
  induction hr with
  | init =>
    intro hc
    obtain ⟨q,⟨-,hpar⟩,-⟩ := Relation.TransGen.head'_iff.mp hc
    rw [(hf.root initPid (by rw [initPid_val])).2] at hpar
    cases hpar
  | @step c p hp _ _ ih =>
    intro hc
    obtain ⟨q,⟨hfree,hpar⟩,hrest⟩ := Relation.TransGen.head'_iff.mp hc
    cases hp.symm.trans hpar
    exact ih (Relation.TransGen.tail' hrest ⟨hfree,hpar⟩)

theorem Forest.wellFounded {PT : PcbRef → PCB} (hf : Forest PT) : WellFounded (Descends PT) := by
  have htrans : IsTrans PcbRef (Descends PT) := ⟨fun _ _ _ => Relation.TransGen.trans⟩
  have hirrefl : Std.Irrefl (Descends PT) := by
    refine ⟨fun c hc => ?_⟩
    obtain ⟨q,⟨hfree,hpar⟩,-⟩ := Relation.TransGen.head'_iff.mp hc
    by_cases hle : c.val≤1
    · rw [(hf.root c hle).2] at hpar
      cases hpar
    · exact (hf.rooted c (by omega) hfree).acyclic hf hc
  exact Finite.wellFounded_of_trans_of_irrefl (Descends PT)

/-- The thread runs in user mode, or was woken, or waits for input from a terminal. -/
def Goes (s : State) (p : PcbRef) : Prop :=
  s.thread p = some .user ∨ (s.thread p≠none ∧ s.stopped p = false) ∨
    ∃ f port size, s.thread p = some (.reading f port size)

theorem Waiting.child {PT : PcbRef → PCB} {t : Thread} (hw : Waiting PT true p t)
    (ht : t.childWait = true) : ∃ c, ChildOf PT c p ∧ (PT c).pstate = .ALIVE := by
  have hany : HasChild PT p → NoExited PT p → ∃ c, ChildOf PT c p ∧ (PT c).pstate = .ALIVE := by
    rintro ⟨c,hfree,hpar⟩ hn
    refine ⟨c,⟨hfree,hpar⟩,?_⟩
    cases hc : (PT c).pstate with
    | FREE => exact absurd hc hfree
    | ALIVE => rfl
    | ZOMBIE => exact absurd hpar (hn c hc)
  cases t with
  | user => cases ht
  | reading => cases ht
  | waitChild c status => exact ⟨c,⟨hw.1,hw.2.1⟩,hw.2.2 rfl⟩
  | waitAny status => exact hany hw.1 (hw.2 rfl)
  | exitWait v => exact hany hw.2.1 (hw.2.2 rfl)

/-- Down the tree from a live process there is a thread that goes. -/
theorem Inv.goes (h : Inv s L fl) (hm : Manned s) (hp : s.thread p≠none) :
    Goes s p ∨ ∃ c, Descends s.procs.PT c p ∧ (s.procs.PT c).pstate = .ALIVE ∧ Goes s c := by
  induction p using h.forest.wellFounded.induction with
  | _ p ih =>
    obtain ⟨t,ht⟩ := Option.ne_none_iff_exists'.mp hp
    by_cases hg : Goes s p
    · exact .inl hg
    · have hstopped : s.stopped p = true := by
        by_contra hs
        exact hg (.inr (.inl ⟨hp,by simpa using hs⟩))
      have hc : t.childWait = true := by
        cases t with
        | user => exact absurd (.inl ht) hg
        | reading f port size => exact absurd (.inr (.inr ⟨f,port,size,ht⟩)) hg
        | _ => rfl
      obtain ⟨c,hchild,halive⟩ := (hstopped ▸ h.waiting p t ht).child hc
      have hc0 : c≠0 := by
        rintro rfl
        have hpar := hchild.2
        rw [(h.forest.root 0 (Nat.zero_le 1)).2] at hpar
        cases hpar
      have hdesc : Descends s.procs.PT c p := .single hchild
      cases ih c hdesc (hm c hc0 halive) with
      | inl hgc => exact .inr ⟨c,hdesc,halive,hgc⟩
      | inr hrest =>
        obtain ⟨d,hdc,hd⟩ := hrest
        exact .inr ⟨d,hdc.trans hdesc,hd⟩

/-- The runs in which every Exec is given a task. -/
def tasked : System State Label := system.restrict fun _ a => a.tasked = true

theorem tasked_reachable (hr : tasked.Reachable s) : system.Reachable s := .of_restrict hr

theorem tasked_step (hr : tasked.Reachable s) {a : Label} (ha : a.tasked = true)
    (hs : system.next s a = some s') : tasked.Reachable s' :=
  .step hr ((if_pos ha).trans hs)

theorem tasked_manned (hr : tasked.Reachable s) : Manned s := by
  induction hr with
  | init h =>
    obtain ⟨ports,argl,args,-,hs⟩ := h
    rw [hs]
    exact (boot_online ports argl args).2
  | @step s s' a hr h ih =>
    obtain ⟨ha,hs⟩ := System.restrict_next h
    obtain ⟨L,fl,hinv⟩ := reachable_inv (tasked_reachable hr)
    have ho := reachable_online (tasked_reachable hr)
    simp only [system] at hs
    split at hs
    · exact (step_online hinv ho ‹_› hs).2 ha ih
    · cases hs

/-- Below each process that sleeps for a child there is one whose thread goes. -/
theorem no_circular_wait (hr : tasked.Reachable s) {t : Thread} (ht : s.thread p = some t)
    (hc : t.childWait = true) (hs : s.stopped p = true) :
    ∃ c, Descends s.procs.PT c p ∧ (s.procs.PT c).pstate = .ALIVE ∧ Goes s c := by
  obtain ⟨L,fl,h⟩ := reachable_inv (tasked_reachable hr)
  cases h.goes (tasked_manned hr) (p := p) (by simp [ht]) with
  | inl hg =>
    rcases hg with hu | ⟨-,hf⟩ | ⟨f,port,size,hread⟩
    · rw [ht] at hu
      cases hu
      cases hc
    · rw [hs] at hf
      cases hf
    · rw [ht] at hread
      cases hread
      cases hc
  | inr hc => exact hc

theorem boot_tasked : tasked.Reachable (boot 0 0 none) := .init ⟨0,0,none,Nat.zero_le _,rfl⟩

theorem boot_sleeping_tasked : tasked.Reachable (sleeping (boot 0 0 none)) := by
  obtain ⟨r,fl,htable,hv,hz⟩ := boot_free
  obtain ⟨huser,hc,hn⟩ := forked_family htable hv hz
  have hfork : system.next (boot 0 0 none) (.exec initPid true 0 none) =
      some (forked (boot 0 0 none)) := system_next boot_user
  have hforked := tasked_step boot_tasked (a := .exec initPid true 0 none) rfl hfork
  obtain ⟨L',fl',h⟩ := reachable_inv (tasked_reachable hforked)
  have ha : Enabled (forked (boot 0 0 none)) (.waitChild initPid NOPROC true) :=
    huser.trans boot_user
  have hwait : step (forked (boot 0 0 none)) (.waitChild initPid NOPROC true) =
      some (sleeping (boot 0 0 none)) := by
    simp only [step, sysWaitChild, ne_eq, not_true_eq_false, if_false]
    rcases waitForAnyChild_cases h initPid true (.waitAny true) with ⟨hc',-⟩ | ⟨-,-,ha⟩ |
      ⟨c,hz,hpar,-⟩
    · exact absurd hc hc'
    · rw [ha, Option.map_some, returnWait, sleeping]
    · exact absurd hpar (hn c hz)
  exact tasked_step hforked (a := .waitChild initPid NOPROC true) rfl ((system_next ha).trans hwait)

theorem no_circular_wait_sleeping : ∃ c,
    Descends (sleeping (boot 0 0 none)).procs.PT c initPid ∧
      ((sleeping (boot 0 0 none)).procs.PT c).pstate = .ALIVE ∧
      Goes (sleeping (boot 0 0 none)) c :=
  no_circular_wait boot_sleeping_tasked (sleeping_waits _).2 rfl (sleeping_waits _).1

/-! What is left to do until all threads have exited. -/

def Thread.weight : Thread → Bool → Nat
  | .user, _ => 4
  | .waitChild _ _, stopped | .waitAny _, stopped | .exitWait _, stopped => if stopped then 0 else 1
  | .reading _ _ _, stopped => if stopped then 6 else 5

def weightOf (pstate : PidState) (stopped : Bool) : Option Thread → Nat
  | none => if pstate = .FREE then 0 else 4
  | some t => (if pstate = .FREE then 0 else 4)+t.weight stopped

def State.weight (s : State) (p : PcbRef) : Nat :=
  weightOf (s.procs.PT p).pstate (s.stopped p) (s.thread p)

noncomputable def State.left (s : State) : Nat := Finset.univ.sum s.weight+s.exited

theorem Thread.weight_childWait {t : Thread} (ht : t.childWait = true) (stopped : Bool) :
    t.weight stopped = if stopped then 0 else 1 := by
  cases t with
  | user => cases ht
  | reading => cases ht
  | _ => rfl

theorem Thread.weight_woken (t : Thread) : t.weight false≤t.weight true+1 := by
  cases t <;> simp [Thread.weight]

theorem Thread.weight_le (t : Thread) (stopped : Bool) : t.weight stopped≤6 := by
  cases t <;> cases stopped <;> simp [Thread.weight]

theorem State.weight_eq {pstate : PidState} {stopped : Bool} {t : Option Thread}
    (hP : (s.procs.PT p).pstate = pstate) (hT : s.thread p = t) (hS : s.stopped p = stopped) :
    s.weight p = weightOf pstate stopped t := by
  rw [State.weight, hP, hT, hS]

theorem State.weight_congr (hP : (s'.procs.PT p).pstate = (s.procs.PT p).pstate)
    (hT : s'.thread p = s.thread p) (hS : s'.stopped p = s.stopped p) :
    s'.weight p = s.weight p := by
  rw [State.weight, State.weight, hP, hT, hS]

theorem State.left_change (hw : ∀ q, q≠p → s'.weight q = s.weight q) :
    s'.left+s.weight p+s.exited = s.left+s'.weight p+s'.exited := by
  have h : Finset.univ.sum s'.weight+s.weight p = Finset.univ.sum s.weight+s'.weight p :=
    sum_change p hw
  rw [State.left, State.left]
  omega

theorem State.left_same (hw : ∀ q, s'.weight q = s.weight q) (he : s'.exited = s.exited) :
    s'.left = s.left := by
  rw [State.left, State.left, he, Finset.sum_congr rfl fun q _ => hw q]

theorem left_wake {t : Thread} (ht : s.thread p = some t) (hc : t.childWait = true)
    (hs : s.stopped p = false) : (s.setThread p (some .user)).left = s.left+3 := by
  have hother : ∀ q, q≠p → (s.setThread p (some .user)).weight q = s.weight q := by
    intro q hq
    exact State.weight_congr rfl (Function.update_of_ne hq _ _) rfl
  have hsum := State.left_change hother
  have hw : s.weight p = weightOf (s.procs.PT p).pstate false (some t) :=
    State.weight_eq rfl ht hs
  have hw' : (s.setThread p (some .user)).weight p =
      weightOf (s.procs.PT p).pstate (s.stopped p) (some .user) :=
    State.weight_eq rfl (Function.update_self ..) rfl
  have he : (s.setThread p (some .user)).exited = s.exited := rfl
  have h1 := t.weight_childWait hc false
  simp only [weightOf, Thread.weight, Bool.false_eq_true, if_false] at hw hw' h1
  omega

theorem left_block (hp : s.thread p = some .user) {t : Thread} (ht : t.childWait = true) :
    (waitChildExit s p t).left+4 = s.left := by
  have hother : ∀ q, q≠p → (waitChildExit s p t).weight q = s.weight q := by
    intro q hq
    exact State.weight_congr rfl (Function.update_of_ne hq _ _) (Function.update_of_ne hq _ _)
  have hsum := State.left_change hother
  have hw : s.weight p = weightOf (s.procs.PT p).pstate (s.stopped p) (some .user) :=
    State.weight_eq rfl hp rfl
  have hw' : (waitChildExit s p t).weight p = weightOf (s.procs.PT p).pstate true (some t) :=
    State.weight_eq rfl (Function.update_self ..) (Function.update_self ..)
  have he : (waitChildExit s p t).exited = s.exited := rfl
  have h0 := t.weight_childWait ht true
  simp only [weightOf, Thread.weight, if_true] at hw hw' h0
  omega

theorem left_cleanup {c : PcbRef} (hz : (s.procs.PT c).pstate = .ZOMBIE) (status : Bool) :
    State.left { s with procs := (cleanupZombie s.procs c status).1 }+4 = s.left := by
  obtain ⟨hPT,hfree⟩ := cleanupZombie_PT s.procs c status
  set s1 : State := { s with procs := (cleanupZombie s.procs c status).1 } with hs1
  have hother : ∀ q, q≠c → s1.weight q = s.weight q := by
    intro q hq
    exact State.weight_congr (congrArg PCB.pstate (hPT q hq)) rfl rfl
  have hsum := State.left_change hother
  have hw : s.weight c = weightOf .ZOMBIE (s.stopped c) (s.thread c) := State.weight_eq hz rfl rfl
  have hw' : s1.weight c = weightOf .FREE (s.stopped c) (s.thread c) :=
    State.weight_eq hfree rfl rfl
  have h4 : weightOf .ZOMBIE (s.stopped c) (s.thread c) =
      weightOf .FREE (s.stopped c) (s.thread c)+4 := by
    cases s.thread c <;> simp [weightOf, Nat.add_comm]
  have he : s1.exited = s.exited := rfl
  omega

theorem left_awaitChild (hp : s.thread p = some .user) {c : PcbRef}
    (hc : (s.procs.PT c).pstate≠.FREE) (status : Bool) :
    (awaitChild s p c status).1.left+4 = s.left := by
  by_cases ha : (s.procs.PT c).pstate = .ALIVE
  · rw [awaitChild, if_pos ha]
    exact left_block hp rfl
  · have hz : (s.procs.PT c).pstate = .ZOMBIE := by
      cases hs : (s.procs.PT c).pstate with
      | FREE => exact absurd hs hc
      | ALIVE => exact absurd hs ha
      | ZOMBIE => rfl
    rw [awaitChild, if_neg ha]
    exact left_cleanup hz status

theorem left_awaitAny (h : Inv s L fl) (hp : s.thread p = some .user) {status : Bool} {t : Thread}
    (ht : t.childWait = true) {r : State × Option WaitResult}
    (hr : awaitAny s p status t = some r) : r.1.left+4 = s.left := by
  rcases awaitAny_eq h p status t with ⟨-,ha⟩ | ⟨c,hz,-,ha⟩
  · cases hr.symm.trans ha
    exact left_block hp ht
  · cases hr.symm.trans ha
    exact left_cleanup hz status

theorem left_returnWait (p : PcbRef) (status : Bool) (r : State × Option WaitResult) :
    (returnWait p status r).left = r.1.left := by
  obtain ⟨s,o⟩ := r
  cases o <;> rfl

theorem left_exitLoop (v : Int) (fuel : Nat) (h : Inv s L fl) (hp : s.thread p = some .user)
    {s1 : State} {b : Bool} (hr : exitLoop p v fuel s = some (s1,b)) :
    (b = false → s1.left < s.left) ∧ (b = true → s1.left≤ s.left ∧ s1.thread p = some .user ∧
      ∃ L' fl', Inv s1 L' fl') := by
  induction fuel generalizing s L fl with
  | zero => cases hr
  | succ fuel ih =>
    rcases waitForAnyChild_cases h p false (.exitWait v) with ⟨-,ha⟩ | ⟨-,-,ha⟩ | ⟨c,hz,hpar,ha⟩
    · rw [exitLoop, ha] at hr
      simp only [Option.bind_some, ne_eq, not_true_eq_false, if_false, Option.some.injEq,
        Prod.mk.injEq] at hr
      obtain ⟨rfl,rfl⟩ := hr
      exact ⟨by simp,fun _ => ⟨Nat.le_refl _,hp,L,fl,noproc_inv h p false none⟩⟩
    · rw [exitLoop, ha] at hr
      simp only [Option.bind_some, Option.some.injEq, Prod.mk.injEq] at hr
      obtain ⟨rfl,rfl⟩ := hr
      have hb := left_block hp (t := .exitWait v) rfl
      exact ⟨fun _ => by omega,by simp⟩
    · rw [exitLoop, ha] at hr
      simp only [Option.bind_some, ne_eq, getPid_ne_noproc, not_false_eq_true, if_true] at hr
      obtain ⟨L',hinv,-⟩ := reap_inv h hp hz hpar false
      have hleft : (reap s p c false).left+4 = s.left := left_cleanup hz false
      obtain ⟨h1,h2⟩ := ih (s := reap s p c false) hinv hp hr
      refine ⟨fun hb => ?_,fun hb => ?_⟩
      · have := h1 hb
        omega
      · obtain ⟨hle,hrest⟩ := h2 hb
        exact ⟨by omega,hrest⟩

def OwnRing (s : State) : Prop := ∀ r, ∀ q∈s.childExit r, q = r

theorem left_wakes (hown : OwnRing s) (h : Wakes s s') : s'.left≤ s.left+1 ∧ OwnRing s' := by
  rcases h.rings with ⟨hst,hring⟩ | ⟨r,hst,hring⟩
  · have hsame : s'.left = s.left := State.left_same (fun q => State.weight_congr (h.pstate q)
      (congrFun h.thread q) (congrFun hst q)) h.exited
    refine ⟨by omega,?_⟩
    rw [OwnRing, hring]
    exact hown
  · have hone : ∀ q, q≠r → s'.stopped q = s.stopped q := by
      intro q hq
      rw [hst, broadcastChildExit]
      simp only [ite_eq_right_iff]
      exact fun hm => absurd (hown r q hm) hq
    have hsum : s'.left+s.weight r+s.exited = s.left+s'.weight r+s'.exited :=
      State.left_change fun q hq => State.weight_congr (h.pstate q) (congrFun h.thread q) (hone q hq)
    have hweight : s'.weight r≤ s.weight r+1 := by
      rw [State.weight, State.weight, h.pstate, h.thread]
      cases ht : s.thread r with
      | none => exact Nat.le_succ _
      | some t =>
        have hw := t.weight_woken
        simp only [weightOf]
        cases hsr : s.stopped r <;> cases hsr' : s'.stopped r <;> try omega
        rw [hst, broadcastChildExit] at hsr'
        simp only [hsr, ite_self, Bool.false_eq_true] at hsr'
    refine ⟨by have := h.exited; omega,fun q x hx => ?_⟩
    rw [hring, broadcastChildExit] at hx
    by_cases hq : q = r
    · simp [hq] at hx
    · simp only [Function.update_of_ne hq] at hx
      exact hown q x hx

theorem left_exitTail (hown : OwnRing s) (hp : s.thread p = some .user)
    (ha : (s.procs.PT p).pstate = .ALIVE) {v : Int} (h : exitTail s p v = some s') :
    s'.left < s.left := by
  obtain ⟨s1,s2,h1,h2,hth,hex,hst,hpst⟩ := exitTail_wakes h
  obtain ⟨hle1,hown1⟩ := left_wakes hown h1
  obtain ⟨hle2,-⟩ := left_wakes hown1 h2
  have hother : ∀ q, q≠p → s'.weight q = s2.weight q := by
    intro q hq
    refine State.weight_congr ?_ ?_ (congrFun hst q)
    · rw [hpst, if_neg hq]
    · rw [hth, Function.update_of_ne hq]
  have hsum := State.left_change hother
  have hw : s2.weight p = 8 :=
    State.weight_eq ((h2.pstate p).trans ((h1.pstate p).trans ha))
      ((congrFun (h2.thread.trans h1.thread) p).trans hp) rfl
  have hw' : s'.weight p = 4 :=
    State.weight_eq (t := none) ((hpst p).trans (if_pos rfl))
      (by rw [hth, Function.update_self]) rfl
  have he := h1.exited
  have he' := h2.exited
  omega

theorem Inv.ownRing (h : Inv s L fl) : OwnRing s := fun r q hq => ((h.ring r q).mp hq).1

theorem left_leaveExitLoop {v : Int} {s1 : State} {b : Bool} (hf : b = false → s1.left < s.left)
    (ht : b = true → s1.left≤ s.left ∧ s1.thread p = some .user ∧ ∃ L fl, Inv s1 L fl)
    (hr : leaveExitLoop p v (s1,b) = some s') : s'.left < s.left := by
  cases b with
  | false =>
    cases hr
    exact hf rfl
  | true =>
    obtain ⟨hle,hp,L,fl,h⟩ := ht rfl
    have hlt := left_exitTail h.ownRing hp (h.alive p (by simp [hp])) hr
    omega

theorem left_exit (h : Inv s L fl) (hp : s.thread p = some .user) {v : Int}
    (hr : sysExit s p v = some s') : s'.left < s.left := by
  unfold sysExit at hr
  split at hr
  · obtain ⟨⟨s1,b⟩,hloop,hr⟩ := Option.bind_eq_some_iff.mp hr
    obtain ⟨hf,ht⟩ := left_exitLoop v childFuel h hp hloop
    exact left_leaveExitLoop hf ht hr
  · exact left_exitTail h.ownRing hp (h.alive p (by simp [hp])) hr

theorem serialRead_taken (valid : Nat → Bool) (size : Nat) {fuel count : Nat} (hc : 0 < count) :
    serialRead valid size fuel count≠none := by
  induction fuel generalizing count with
  | zero => exact Option.some_ne_none _
  | succ fuel ih =>
    rw [serialRead]
    split
    · split
      · exact ih (Nat.succ_pos count)
      · rw [if_neg (by omega)]
        exact Option.some_ne_none _
    · exact Option.some_ne_none _

theorem left_read {f : FcbRef} {port size : Nat} {valid : Nat → Bool}
    (ht : s.thread p = some (.reading f port size)) (hs : s.stopped p = false)
    (hv : valid 0 = true) {r : State × Option Int}
    (hr : devread (s.setThread p (some .user)) p f (some port) size 0 valid .serial = some r) :
    r.1.left < s.left := by
  have hbyte : serialRead valid size (size+1) 0≠none := by
    rw [serialRead, if_pos hv]
    split
    · exact serialRead_taken valid size (Nat.succ_pos 0)
    · exact Option.some_ne_none _
  obtain ⟨count,hcount⟩ := Option.ne_none_iff_exists'.mp hbyte
  rw [devread, Option.bind_some, hcount] at hr
  obtain ⟨x,-,rfl⟩ := Option.map_eq_some_iff.mp hr
  have hother : ∀ q, q≠p → (s.setThread p (some .user)).weight q = s.weight q := by
    intro q hq
    exact State.weight_congr rfl (Function.update_of_ne hq _ _) rfl
  have hsum := State.left_change hother
  have hw : s.weight p = weightOf (s.procs.PT p).pstate false (some (.reading f port size)) :=
    State.weight_eq rfl ht hs
  have hw' : (s.setThread p (some .user)).weight p =
      weightOf (s.procs.PT p).pstate (s.stopped p) (some .user) :=
    State.weight_eq rfl (Function.update_self ..) rfl
  have he : (s.setThread p (some .user)).exited = s.exited := rfl
  change (s.setThread p (some .user)).left < s.left
  simp only [weightOf, Thread.weight, Bool.false_eq_true, if_false] at hw hw'
  omega

theorem left_resume (h : Inv s L fl) (hs : s.stopped p = false) {valid : Nat → Bool}
    (hv : valid 0 = true) (hr : resume s p valid = some s') : s'.left < s.left := by
  obtain ⟨t,ht,hfrom⟩ := Option.bind_eq_some_iff.mp hr
  have huser : (s.setThread p (some .user)).thread p = some .user := by simp [State.setThread]
  have hw := h.waiting p t ht
  cases t with
  | user => cases hfrom
  | waitChild c status =>
    cases hfrom
    have hwake := left_wake ht rfl hs
    have hleft := left_awaitChild (s := s.setThread p (some .user)) huser hw.1 status
    rw [left_returnWait]
    omega
  | waitAny status =>
    obtain ⟨r,hany,rfl⟩ := Option.map_eq_some_iff.mp hfrom
    have hwake := left_wake ht rfl hs
    have hleft := left_awaitAny (h.wake ht rfl hs).1 huser rfl hany
    rw [left_returnWait]
    omega
  | exitWait v =>
    have hwake := left_wake ht rfl hs
    have hinv := (h.wake ht rfl hs).1
    obtain ⟨⟨s1,o⟩,hany,hfrom⟩ := Option.bind_eq_some_iff.mp hfrom
    have hleft := left_awaitAny hinv huser rfl hany
    cases o with
    | none =>
      cases hfrom
      simp only at hleft
      omega
    | some x =>
      obtain ⟨ret,stored⟩ := x
      rcases awaitAny_eq hinv p false (.exitWait v) with ⟨-,ha⟩ | ⟨c,hz,hpar,ha⟩
      · cases hany.symm.trans ha
      · cases hany.symm.trans ha
        obtain ⟨L',hreap,-⟩ := reap_inv hinv huser hz hpar false
        obtain ⟨⟨s2,b⟩,hloop,hfrom⟩ := Option.bind_eq_some_iff.mp hfrom
        obtain ⟨hf,hb⟩ := left_exitLoop v childFuel hreap huser hloop
        have hlt := left_leaveExitLoop hf hb hfrom
        have hsame : (reap (s.setThread p (some .user)) p c false).left+4 =
            (s.setThread p (some .user)).left := hleft
        omega
  | reading f port size =>
    obtain ⟨r,hread,rfl⟩ := Option.map_eq_some_iff.mp hfrom
    exact left_read ht hs hv hread

theorem left_serialRx (h : Inv s L fl) (hr : ∃ i < s.serialPorts, s.rxReady i≠[]) :
    (serialRxHandler s).left < s.left := by
  obtain ⟨i,hi,hne⟩ := hr
  obtain ⟨p,hp⟩ := List.exists_mem_of_ne_nil _ hne
  obtain ⟨hstopped,f,size,ht⟩ := (h.rx i p).mp hp
  have hle : ∀ q, (serialRxHandler s).weight q≤ s.weight q := by
    intro q
    by_cases hq : ∃ j < s.serialPorts, q∈s.rxReady j
    · obtain ⟨j,-,hm⟩ := hq
      obtain ⟨hst,g,n,hread⟩ := (h.rx j q).mp hm
      have hw : s.weight q = weightOf (s.procs.PT q).pstate true (some (.reading g j n)) :=
        State.weight_eq rfl hread hst
      have hw' : (serialRxHandler s).weight q = weightOf (s.procs.PT q).pstate
          ((serialRxHandler s).stopped q) (some (.reading g j n)) := State.weight_eq rfl hread rfl
      rw [hw, hw', weightOf, weightOf]
      cases (serialRxHandler s).stopped q <;> simp [Thread.weight]
    · have hsame : (serialRxHandler s).stopped q = s.stopped q := if_neg hq
      have hcongr : (serialRxHandler s).weight q = s.weight q := State.weight_congr rfl rfl hsame
      exact hcongr.le
  have hlt : (serialRxHandler s).weight p < s.weight p := by
    have hw : s.weight p = weightOf (s.procs.PT p).pstate true (some (.reading f i size)) :=
      State.weight_eq rfl ht hstopped
    have hw' : (serialRxHandler s).weight p =
        weightOf (s.procs.PT p).pstate false (some (.reading f i size)) :=
      State.weight_eq rfl ht (by rw [serialRxHandler]; exact if_pos ⟨i,hi,hp⟩)
    rw [hw, hw', weightOf, weightOf]
    simp [Thread.weight]
  have hsum := Finset.sum_lt_sum (fun q _ => hle q) ⟨p,Finset.mem_univ p,hlt⟩
  exact Nat.add_lt_add_right hsum s.exited

def Label.leaves (s : State) : Label → Prop
  | .exit _ _ | .releaseTCB => True
  | .resume _ valid => valid 0 = true
  | .serialRx => ∃ i < s.serialPorts, s.rxReady i≠[]
  | _ => False

instance (s : State) (a : Label) : Decidable (a.leaves s) :=
  match a with
  | .exit _ _ | .releaseTCB => inferInstanceAs (Decidable True)
  | .resume _ valid => inferInstanceAs (Decidable (valid 0 = true))
  | .serialRx => inferInstanceAs (Decidable (∃ i < s.serialPorts, s.rxReady i≠[]))
  | .exec _ _ _ _ | .waitChild _ _ _ | .openNull _ | .openTerminal _ _ | .console _ | .close _ _
  | .dup2 _ _ _ | .read _ _ _ _ _ | .write _ _ _ _ _ _ => inferInstanceAs (Decidable False)

def leaving : System State Label := system.restrict fun s a => a.leaves s

theorem leaving_next {a : Label} (ha : Enabled s a) (hl : a.leaves s) :
    leaving.next s a = step s a := (if_pos hl).trans (system_next ha)

theorem leaving_step {a : Label} (h : leaving.next s a = some s') :
    Enabled s a ∧ a.leaves s ∧ step s a = some s' := by
  obtain ⟨hl,hs⟩ := System.restrict_next h
  simp only [system] at hs
  split at hs
  · exact ⟨‹Enabled s a›,hl,hs⟩
  · cases hs

theorem Label.leaves_tasked {a : Label} (h : a.leaves s) : a.tasked = true := by
  cases a <;> first | rfl | cases h

theorem leaving_tasked (hr : tasked.Reachable s) {a : Label} (h : leaving.next s a = some s') :
    tasked.Reachable s' := by
  obtain ⟨hl,hs⟩ := System.restrict_next h
  exact tasked_step hr (Label.leaves_tasked hl) hs

theorem leaving_run (hr : tasked.Reachable s) (as : List Label) {t : State}
    (hrun : leaving.run s as = some t) : tasked.Reachable t := by
  induction as generalizing s with
  | nil =>
    cases hrun
    exact hr
  | cons a as ih =>
    obtain ⟨s1,ha,hrest⟩ := Option.bind_eq_some_iff.mp hrun
    exact ih (leaving_tasked hr ha) hrest

theorem leaving_left (hr : tasked.Reachable s) {a : Label} (hs : leaving.next s a = some s') :
    s'.left < s.left := by
  obtain ⟨L,fl,h⟩ := reachable_inv (tasked_reachable hr)
  obtain ⟨ha,hl,hs⟩ := leaving_step hs
  cases a with
  | exit p v => exact left_exit h ha hs
  | resume p valid => exact left_resume h ha.2.2 hl hs
  | serialRx =>
    cases hs
    exact left_serialRx h hl
  | releaseTCB =>
    cases hs
    have he : s.exited≠0 := ha
    change Finset.univ.sum s.weight+(s.exited-1) < Finset.univ.sum s.weight+s.exited
    omega
  | _ => cases hl

/-- Nobody is left but the scheduler process and init, which nobody waits for, and each stream
that was opened has been closed. -/
structure Over (s : State) : Prop where
  thread : ∀ p, s.thread p = none
  active : s.activeThreads = 0
  exited : s.exited = 0
  init : (s.procs.PT initPid).pstate = .ZOMBIE
  table : ∀ p : PcbRef, 1 < p.val → (s.procs.PT p).pstate = .FREE
  fids : ∀ p i, s.files.FIDT p i = none
  refs : ∀ f, s.refs f = 0
  closed : ∀ f, s.files.log.count (.opened f) = s.files.log.count (.closed f)

theorem over_of_no_threads (hr : system.Reachable s) (hm : Manned s) (he : s.exited = 0)
    (hn : ∀ p, s.thread p = none) : Over s := by
  obtain ⟨L,fl,h⟩ := reachable_inv hr
  have hdead : ∀ p, p≠0 → (s.procs.PT p).pstate≠.ALIVE := fun p hp ha => hm p hp ha (hn p)
  have hinit : (s.procs.PT initPid).pstate≠.ALIVE := hdead initPid (by decide)
  have hlive : liveThreads s.thread = 0 := tally_eq_zero.mpr fun p => by simp [hn p]
  have hfids : ∀ p i, s.files.FIDT p i = none := by
    intro p i
    by_cases hp : p = 0
    · rw [hp]
      exact (reachable_online hr).spare i
    · exact h.fids p (hdead p hp) i
  have hrefs : ∀ f, s.refs f = 0 := by
    intro f
    have hslots : slots s.files f = 0 := tally_eq_zero.mpr fun x => by simp [hfids]
    have hinf : inflight s.thread f = 0 := tally_eq_zero.mpr fun p => by simp [hn p]
    change slots s.files f+inflight s.thread f = 0
    omega
  refine ⟨hn,?_,he,?_,h.last hinit,hfids,hrefs,fun f => ?_⟩
  · rw [h.active, hlive, he]
    rfl
  · cases hs : (s.procs.PT initPid).pstate with
    | FREE => exact absurd hs (h.forest.root initPid (by rw [initPid_val])).1
    | ALIVE => exact absurd hs hinit
    | ZOMBIE => rfl
  · rw [reachable_closes hr f, hrefs f]
    rfl

theorem leaving_stuck (hr : tasked.Reachable s) (hstuck : ∀ a, leaving.next s a = none) :
    Over s := by
  obtain ⟨L,fl,h⟩ := reachable_inv (tasked_reachable hr)
  have hm := tasked_manned hr
  have ho := reachable_online (tasked_reachable hr)
  have hnone : ∀ a, Enabled s a → a.leaves s → step s a = none := fun a ha hl =>
    (leaving_next ha hl).symm.trans (hstuck a)
  have he : s.exited = 0 := by
    by_contra hne
    cases hnone .releaseTCB hne trivial
  have hwoken : ∀ p, s.thread p≠none → s.thread p≠some .user → s.stopped p≠false := by
    intro p hp hu hs
    exact resume_returns h hp hu hs (fun _ => true)
      (hnone (.resume p fun _ => true) ⟨hp,hu,hs⟩ rfl)
  have huser : ∀ p, s.thread p≠some .user := by
    intro p hu
    obtain ⟨s1,hs1,-⟩ := sysExit_kept h hu 0
    cases hs1.symm.trans (hnone (.exit p 0) hu trivial)
  have hidle : ∀ p, ¬Goes s p := by
    rintro p (hu | ⟨hp,hs⟩ | ⟨f,port,size,hread⟩)
    · exact huser p hu
    · exact hwoken p hp (huser p) hs
    · have hstopped : s.stopped p = true := by
        simpa using hwoken p (by simp [hread]) (huser p)
      have hm : p∈s.rxReady port := (h.rx port p).mpr ⟨hstopped,f,size,hread⟩
      cases hnone .serialRx trivial ⟨port,ho.reads p f port size hread,List.ne_nil_of_mem hm⟩
  refine over_of_no_threads (tasked_reachable hr) hm he fun p => ?_
  by_contra hp
  cases h.goes hm hp with
  | inl hg => exact hidle p hg
  | inr hc =>
    obtain ⟨c,-,-,hg⟩ := hc
    exact hidle c hg

theorem State.left_le (s : State) : s.left≤10*MAX_PROC+s.exited := by
  have hw : ∀ p∈Finset.univ, s.weight p≤10 := by
    intro p _
    rw [State.weight]
    cases s.thread p with
    | none =>
      rw [weightOf]
      split <;> omega
    | some t =>
      have := t.weight_le (s.stopped p)
      rw [weightOf]
      split <;> omega
  have hsum := Finset.sum_le_card_nsmul Finset.univ s.weight 10 hw
  have hcard : (Finset.univ : Finset PcbRef).card = MAX_PROC := Finset.card_fin MAX_PROC
  rw [hcard, smul_eq_mul, Nat.mul_comm] at hsum
  exact Nat.add_le_add_right hsum s.exited

/-- In whatever order the threads exit from here on, they all get to it, and the kernel is left
empty. -/
theorem all_leave (hr : tasked.Reachable s) {as : List Label} {t : State}
    (hrun : leaving.run s as = some t) :
    as.length≤10*MAX_PROC+s.exited ∧ ((∀ a, leaving.next t a = none) → Over t) ∧
      ∃ bs u, leaving.run t bs = some u ∧ Over u := by
  have hstep : ∀ s a s', tasked.Reachable s → leaving.next s a = some s' →
      tasked.Reachable s' ∧ s'.left < s.left := fun s a s' hr hs =>
    ⟨leaving_tasked hr hs,leaving_left hr hs⟩
  have hlen := leaving.run_length_le tasked.Reachable State.left hstep hr hrun
  have ht := leaving_run hr as hrun
  refine ⟨hlen.trans s.left_le,leaving_stuck ht,?_⟩
  obtain ⟨bs,u,hbs,-,hu,hstuck⟩ := leaving.can_end tasked.Reachable
    (fun u => ∀ a, leaving.next u a = none) State.left (fun s hs hd => by
      obtain ⟨a,ha⟩ := not_forall.mp hd
      obtain ⟨s1,hs1⟩ := Option.ne_none_iff_exists'.mp ha
      exact ⟨a,s1,hs1,hstep s a s1 hs hs1⟩) ht
  exact ⟨bs,u,hbs,leaving_stuck hu hstuck⟩

theorem boot_all_leave : ∃ bs u, leaving.run (boot 0 0 none) bs = some u ∧ Over u := by
  have hrun : leaving.run (boot 0 0 none) [] = some (boot 0 0 none) := rfl
  exact (all_leave boot_tasked hrun).2.2

end
end TinyOS.Kernel
