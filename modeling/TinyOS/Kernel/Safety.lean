import TinyOS.Kernel.Boot

/-! What every run of the kernel keeps, whenever the kernel lock is free. -/
namespace TinyOS.Kernel
open RList Tally

section
variable {s : State} {L : Kin → List PcbRef} {fl : List PcbRef} {p : PcbRef}

theorem boot_reachable : system.Reachable (boot 0 0 none) :=
  .init ⟨0,0,none,Nat.zero_le _,rfl⟩

theorem boot_user : (boot 0 0 none).thread initPid = some .user := by
  obtain ⟨P,fl,hboot,-,-⟩ := boot_eq 0 0 none
  rw [hboot]
  simp only [booted, Function.update_self]

theorem boot_free : ∃ r fl, Table (boot 0 0 none).procs (fun _ => []) (r::fl) ∧ 1<r.val ∧
    ∀ p, ((boot 0 0 none).procs.PT p).pstate≠.ZOMBIE := by
  obtain ⟨P,fl,hboot,htable,hPT⟩ := boot_eq 0 0 none
  have hprocs : (boot 0 0 none).procs = P := by rw [hboot, booted]
  rw [hprocs]
  have hfree : ∀ p : PcbRef, 1<p.val → (P.PT p).pstate = .FREE := by
    intro p hp
    rcases hPT p with h | h
    · omega
    · exact h.2
  have hmem : (⟨2,by decide⟩ : PcbRef)∈fl := (htable.free _).mpr (hfree _ (by decide))
  cases fl with
  | nil => simp at hmem
  | cons r fl =>
    refine ⟨r,fl,htable,?_,fun p hz => ?_⟩
    · have hr := (htable.free r).mp (by simp)
      rcases hPT r with h | h
      · simp [h.2.1] at hr
      · exact h.1
    · rcases hPT p with h | h
      · simp [h.2.1] at hz
      · simp [h.2] at hz

def forked (s : State) : State := (sysExec s initPid true 0 none).1

def sleeping (s : State) : State := waitChildExit (forked s) initPid (.waitAny true)

theorem system_next {a : Label} (ha : Enabled s a) : system.next s a = step s a := if_pos ha

theorem forked_reachable (hr : system.Reachable s) (hp : s.thread initPid = some .user) :
    system.Reachable (forked s) :=
  .step (a := .exec initPid true 0 none) hr (system_next hp)

theorem forked_family {r : PcbRef} (h : Table s.procs L (r::fl)) (hr : 1<r.val)
    (hz : ∀ c, (s.procs.PT c).pstate≠.ZOMBIE) :
    (forked s).thread initPid = s.thread initPid ∧ HasChild (forked s).procs.PT initPid ∧
      NoExited (forked s).procs.PT initPid := by
  have hri : initPid≠r := by
    rintro rfl
    rw [initPid_val] at hr
    omega
  obtain ⟨hother,ha,hpar⟩ := exec_PT h hr initPid 0 none rfl
  rw [forked, sysExec_cons h]
  simp only [if_true, startMainThread, State.setThread, State.record, Function.update_of_ne hri]
  refine ⟨trivial,⟨r,by simp [ha],hpar⟩,fun c hc => ?_⟩
  by_cases hcr : c = r
  · rw [hcr, ha] at hc
    cases hc
  · rw [hother c hcr] at hc
    exact absurd hc (hz c)

theorem boot_log : (boot 0 0 none).log = [.exec none 0,.exec none initPid] := by
  obtain ⟨P,fl,hboot,-,-⟩ := boot_eq 0 0 none
  rw [hboot, booted]

theorem forked_fields {r : PcbRef} (h : Table s.procs L (r::fl)) (hr : 1<r.val) :
    (forked s).thread = Function.update s.thread r (some .user) ∧
      (forked s).log = s.log++[.exec (some initPid) r] ∧
      (forked s).files = inheritFIDT s.files initPid r := by
  have hle : ¬r.val≤1 := by omega
  rw [forked, sysExec_cons h]
  simp only [if_true, if_neg hle]
  exact ⟨rfl,rfl,rfl⟩

theorem exitTail_fields {v : Int} {s' : State} (h : exitTail s p v = some s') :
    s'.thread = Function.update s.thread p none ∧ s'.log = s.log++[.exit p v] := by
  obtain ⟨files,-,h⟩ := Option.bind_eq_some_iff.mp h
  obtain ⟨procs,-,h⟩ := Option.bind_eq_some_iff.mp h
  obtain ⟨s1,hadopt,rfl⟩ := Option.map_eq_some_iff.mp h
  have h1 : s1.thread = s.thread ∧ s1.log = s.log := by
    unfold adoptExited at hadopt
    split at hadopt
    · cases hadopt
      exact ⟨rfl,rfl⟩
    · obtain ⟨init,-,rfl⟩ := Option.map_eq_some_iff.mp hadopt
      exact ⟨rfl,rfl⟩
  have h2 : (tellParent s1 p).thread = s1.thread ∧ (tellParent s1 p).log = s1.log := by
    unfold tellParent
    split <;> exact ⟨rfl,rfl⟩
  simp only [State.setThread, State.record]
  rw [h2.1, h2.2, h1.1, h1.2]
  exact ⟨rfl,rfl⟩

def childExitLog (r : PcbRef) (v : Int) : List Event :=
  [.exec none 0,.exec none initPid,.exec (some initPid) r,.exit r v]

theorem boot_child_exits (v : Int) : ∃ r s, 1<r.val ∧ system.Reachable s ∧
    s.thread initPid = some .user ∧ s.log = childExitLog r v := by
  obtain ⟨r,fl,htable,hr,hz⟩ := boot_free
  obtain ⟨hthread,hlog,-⟩ := forked_fields htable hr
  have hreach := forked_reachable boot_reachable boot_user
  have hri : r≠initPid := by
    rintro rfl
    rw [initPid_val] at hr
    omega
  have hp : (forked (boot 0 0 none)).thread r = some .user := by
    rw [hthread, Function.update_self]
  obtain ⟨L,fl,h⟩ := reachable_inv hreach
  obtain ⟨s,-,hs,-⟩ := exitTail_inv h hp (fun hc => absurd hc hri) v
  obtain ⟨hth,hl⟩ := exitTail_fields hs
  refine ⟨r,s,hr,.step (a := .exit r v) hreach ((system_next (a := .exit r v) hp).trans ?_),?_,?_⟩
  · rw [step, sysExit, if_neg hri, hs]
  · rw [hth, Function.update_of_ne hri.symm, hthread, Function.update_of_ne hri.symm, boot_user]
  · rw [hl, hlog, boot_log]
    rfl

theorem Inv.exited_child (h : Inv s L fl) {r : PcbRef} {v : Int}
    (hlog : s.log = childExitLog r v) : (s.procs.PT r).pstate = .ZOMBIE ∧
      (s.procs.PT r).parent = some initPid ∧ (s.procs.PT r).exitval = v ∧
      ∀ c, (s.procs.PT c).pstate≠.FREE → (s.procs.PT c).parent = some initPid → c = r := by
  have hlive : (ledger s.log).live r = some ⟨2,some initPid,some v⟩ := by
    rw [hlog]
    simp [ledger, childExitLog, Ledger.record]
  have hex := h.agree.exitval r _ hlive
  have hz : (s.procs.PT r).pstate = .ZOMBIE := by
    by_contra hne
    rw [if_neg hne] at hex
    cases hex
  rw [if_pos hz] at hex
  refine ⟨hz,(h.agree.parent r _ hlive).symm,(Option.some.inj hex).symm,fun c hc hpar => ?_⟩
  by_contra hcr
  obtain ⟨i,hi⟩ := Option.ne_none_iff_exists'.mp fun hn => hc ((h.agree.free c).mp hn)
  have hroot := h.agree.parent c i hi
  have hv : ¬c.val≤1 := fun hle => by
    rw [(h.forest.root c hle).2] at hpar
    cases hpar
  have hc0 : c≠0 := by
    rintro rfl
    exact hv (Nat.zero_le _)
  have hc1 : c≠initPid := by
    rintro rfl
    exact hv (by rw [initPid_val])
  rw [hlog] at hi
  simp [ledger, childExitLog, Ledger.record, hcr, hc0, hc1] at hi

theorem boot_files : (boot 0 0 none).files = initializeFiles := by
  obtain ⟨P,fl,hboot,-,-⟩ := boot_eq 0 0 none
  rw [hboot, booted]

theorem next_openNull {f : FcbRef} {free : List FcbRef} (hp : s.thread p = some .user)
    (hr : FreeRing s.files.heap (f::free)) (hnone : ∀ i, s.files.FIDT p i = none) :
    ∃ s', system.next s (.openNull p) = some s' ∧ s'.thread = s.thread ∧ s'.procs = s.procs ∧
      s'.files.FIDT p 0 = some f := by
  obtain ⟨F,hopen,hslot⟩ := openStream_null hr hnone s.serialPorts
  refine ⟨{ s with files := F },?_,rfl,rfl,hslot⟩
  rw [system_next (a := .openNull p) hp, step, hopen, State.withFiles, Option.map_some]

theorem boot_opens : ∃ s f, system.next (boot 0 0 none) (.openNull initPid) = some s ∧
    s.thread = (boot 0 0 none).thread ∧ s.procs = (boot 0 0 none).procs ∧
      s.files.FIDT initPid 0 = some f := by
  obtain ⟨g,l,hl⟩ : ∃ g l, List.finRange MAX_FILES = g::l := ⟨_,_,finRange_eq.choose_spec⟩
  have hring : FreeRing (boot 0 0 none).files.heap (g::l) := by
    rw [boot_files, ← hl]
    exact (releaseFCBs_ring (List.nodup_finRange MAX_FILES)).1
  obtain ⟨s,hs⟩ := next_openNull boot_user hring fun i => by rw [boot_files, initializeFiles_FIDT]
  exact ⟨s,g,hs⟩

theorem boot_shares : ∃ s1 s r f, system.next (boot 0 0 none) (.openNull initPid) = some s1 ∧
    system.next s1 (.exec initPid true 0 none) = some s ∧ s1.thread initPid = some .user ∧
    s.thread initPid = some .user ∧ s.thread r = some .user ∧ r≠initPid ∧
    s.files.FIDT initPid 0 = some f ∧ s.files.FIDT r 0 = some f := by
  obtain ⟨s1,f,hopen,hth,hprocs,hslot⟩ := boot_opens
  obtain ⟨r,fl,htable,hr,-⟩ := boot_free
  rw [← hprocs] at htable
  obtain ⟨L,fl',h⟩ := reachable_inv (boot_reachable.step hopen)
  obtain ⟨hthread,-,hfiles⟩ := forked_fields htable hr
  have hri : initPid≠r := by
    rintro rfl
    rw [initPid_val] at hr
    omega
  have hp : s1.thread initPid = some .user := by rw [hth, boot_user]
  have hfree : (s1.procs.PT r).pstate = .FREE := (htable.free r).mp (by simp)
  obtain ⟨-,hown,hnew⟩ := h.files.inheritFIDT hri (inflight_le _) (h.fids r (by simp [hfree]))
  refine ⟨s1,forked s1,r,f,hopen,system_next (a := .exec initPid true 0 none) hp,hp,?_,?_,hri.symm,
    ?_,?_⟩
  · rw [hthread, Function.update_of_ne hri, hp]
  · rw [hthread, Function.update_self]
  · rw [hfiles, hown initPid hri, hslot]
  · rw [hfiles, hnew, hslot]

theorem sleeping_reachable {r : PcbRef} (hr : system.Reachable s)
    (hp : s.thread initPid = some .user) (ht : Table s.procs L (r::fl)) (hv : 1<r.val)
    (hz : ∀ c, (s.procs.PT c).pstate≠.ZOMBIE) : system.Reachable (sleeping s) := by
  have hreach := forked_reachable hr hp
  obtain ⟨huser,hc,hn⟩ := forked_family ht hv hz
  obtain ⟨L',fl',h⟩ := reachable_inv hreach
  have ha : Enabled (forked s) (.waitChild initPid NOPROC true) := huser.trans hp
  refine .step hreach ((system_next ha).trans ?_)
  simp only [step, sysWaitChild, ne_eq, not_true_eq_false, if_false]
  rcases waitForAnyChild_cases h initPid true (.waitAny true) with ⟨hc',-⟩ | ⟨-,-,ha⟩ |
    ⟨c,hz,hpar,-⟩
  · exact absurd hc hc'
  · rw [ha, Option.map_some, returnWait, sleeping]
  · exact absurd hpar (hn c hz)

theorem boot_sleeping_reachable : system.Reachable (sleeping (boot 0 0 none)) := by
  obtain ⟨r,fl,htable,hv,hz⟩ := boot_free
  exact sleeping_reachable boot_reachable boot_user htable hv hz

theorem sleeping_waits (s : State) : (sleeping s).stopped initPid = true ∧
    (sleeping s).thread initPid = some (.waitAny true) := by
  simp [sleeping, waitChildExit, State.setThread]

structure Unused (P : Procs) (F : Files) (p : PcbRef) : Prop where
  noChildren : isRlistEmpty P.heap (.childrenList p) = true
  noExited : isRlistEmpty P.heap (.exitedList p) = true
  childrenNode : P.heap.next (.childrenNode p) = .childrenNode p ∧
    P.heap.prev (.childrenNode p) = .childrenNode p
  exitedNode : P.heap.next (.exitedNode p) = .exitedNode p ∧
    P.heap.prev (.exitedNode p) = .exitedNode p
  args : (P.PT p).args = none
  fids : ∀ i, F.FIDT p i = none

/-- The free list, the process count and the rings hold what the PCBs say, and every
process descends from init. -/
structure Consistent (P : Procs) (F : Files) : Prop where
  freelist : ∃ fl, FreeChain P.PT P.pcbFreelist fl ∧ fl.Nodup ∧
    ∀ p, p∈fl ↔ (P.PT p).pstate = .FREE
  count : P.processCount.toNat = (Finset.univ.filter fun p => (P.PT p).pstate≠.FREE).card
  linked : Linked P.heap
  children : ∀ p, ∃ l : List PcbRef,
    Ring.Path P.heap.next (.childrenList p::l.map .childrenNode) (.childrenList p) ∧ l.Nodup ∧
      ∀ c, c∈l ↔ (P.PT c).pstate≠.FREE ∧ (P.PT c).parent = some p
  exited : ∀ p, ∃ l : List PcbRef,
    Ring.Path P.heap.next (.exitedList p::l.map .exitedNode) (.exitedList p) ∧ l.Nodup ∧
      ∀ c, c∈l ↔ (P.PT c).pstate = .ZOMBIE ∧ (P.PT c).parent = some p
  unused : ∀ p, (P.PT p).pstate = .FREE → Unused P F p
  parent : ∀ p : PcbRef, 1<p.val → (P.PT p).pstate≠.FREE →
    ∃ q, (P.PT p).parent = some q ∧ (P.PT q).pstate = .ALIVE
  rooted : ∀ p : PcbRef, 1<p.val → (P.PT p).pstate≠.FREE → Rooted P.PT p

theorem Table.processCount_eq {P : Procs} (h : Table P L fl) :
    P.processCount.toNat = (Finset.univ.filter fun p => (P.PT p).pstate≠.FREE).card := by
  have hfree : (Finset.univ.filter fun p => (P.PT p).pstate = .FREE) = fl.toFinset := by
    ext p
    rw [Finset.mem_filter, List.mem_toFinset, h.free p]
    exact ⟨And.right,fun hp => ⟨Finset.mem_univ p,hp⟩⟩
  have hsplit : (Finset.univ.filter fun p => (P.PT p).pstate = .FREE).card+
      (Finset.univ.filter fun p => (P.PT p).pstate≠.FREE).card = MAX_PROC :=
    (Finset.card_filter_add_card_filter_not _).trans (by rw [Finset.card_univ, Fintype.card_fin])
  rw [hfree, List.toFinset_card_of_nodup h.nodup] at hsplit
  have := h.count
  omega

theorem Inv.no_children (h : Inv s L fl) (hp : (s.procs.PT p).pstate≠.ALIVE) :
    L (.children p) = [] ∧ L (.exited p) = [] := by
  have hno : ∀ c, (s.procs.PT c).pstate≠.FREE → (s.procs.PT c).parent≠some p := by
    intro c hc hpar
    have hv : 1<c.val := by
      by_contra hle
      rw [(h.forest.root c (by omega)).2] at hpar
      cases hpar
    obtain ⟨q,hq,ha⟩ := h.forest.parent hv hc
    rw [hq] at hpar
    cases hpar
    exact hp ha
  refine ⟨List.eq_nil_iff_forall_not_mem.mpr fun c hm => ?_,
    List.eq_nil_iff_forall_not_mem.mpr fun c hm => ?_⟩
  · obtain ⟨hc,hpar⟩ := (h.table.children p c).mp hm
    exact hno c hc hpar
  · obtain ⟨hz,hpar⟩ := (h.table.exited p c).mp hm
    exact hno c (by simp [hz]) hpar

theorem Inv.unused (h : Inv s L fl) (hp : (s.procs.PT p).pstate = .FREE) :
    Unused s.procs s.files p := by
  obtain ⟨hchildren,hexited⟩ := h.no_children (p := p) (by simp [hp])
  refine ⟨?_,?_,?_,?_,h.table.args p (by simp [hp]),h.fids p (by simp [hp])⟩
  · simp [h.table.family.isEmpty_children, hchildren]
  · simp [h.table.family.isEmpty_exited, hexited]
  · refine h.table.family.single (k := .children p) fun j hj => ?_
    cases j with
    | children q => exact h.table.not_mem_children hp q
    | exited q => simp [kinNode] at hj
  · refine h.table.family.single (k := .exited p) fun j hj => ?_
    cases j with
    | children q => simp [kinNode] at hj
    | exited q => exact h.table.not_mem_exited (by simp [hp]) q

theorem Inv.consistent (h : Inv s L fl) : Consistent s.procs s.files :=
  { freelist := ⟨fl,h.table.chain,h.table.nodup,h.table.free⟩
    count := h.table.processCount_eq
    linked := h.table.family.rings.linked
    children := fun p => ⟨L (.children p),h.table.family.rings.lists.path (.children p),
      h.table.family.nodup (.children p),h.table.children p⟩
    exited := fun p => ⟨L (.exited p),h.table.family.rings.lists.path (.exited p),
      h.table.family.nodup (.exited p),h.table.exited p⟩
    unused := fun _ => h.unused
    parent := fun _ => h.forest.parent
    rooted := h.forest.rooted }

/-- The process table is consistent in every run, and no section of Exec, Exit or
WaitChild fails: each one that can start returns. -/
theorem process_table_consistent (hr : system.Reachable s) :
    Consistent s.procs s.files ∧
      (∀ p v, s.thread p = some .user → (sysExit s p v).isSome = true) ∧
      (∀ p cpid status, s.thread p = some .user → (sysWaitChild s p cpid status).isSome = true) ∧
      ∀ p t valid, s.thread p = some t → t.childWait = true → s.stopped p = false →
        (resume s p valid).isSome = true := by
  obtain ⟨L,fl,h⟩ := reachable_inv hr
  refine ⟨h.consistent,fun p v hp => ?_,fun p cpid status hp => ?_,fun p t valid ht hc hs => ?_⟩
  · obtain ⟨s',hs',-⟩ := sysExit_kept h hp v
    simp [hs']
  · obtain ⟨s',-,-,hs',-⟩ := sysWaitChild_inv h hp cpid status
    obtain ⟨ret,hret,-⟩ := Option.map_eq_some_iff.mp hs'
    simp [hret]
  · obtain ⟨s',hs',-⟩ := resume_wait_kept h ht hc hs valid
    simp [hs']

theorem boot_sleeping_consistent :
    Consistent (sleeping (boot 0 0 none)).procs (sleeping (boot 0 0 none)).files :=
  (process_table_consistent boot_sleeping_reachable).1

/-- The FCBs without references are on FCB_freelist, the counters of the others are
exact, and Close has been called once for each device but those still in use. -/
structure Balanced (F : Files) (R : FcbRef → Nat) : Prop where
  linked : Linked F.heap
  freelist : ∃ fl : List FcbRef,
    Ring.Path F.heap.next (.FCB_freelist::fl.map .freelistNode) .FCB_freelist ∧ fl.Nodup ∧
      ∀ f, f∈fl ↔ R f = 0
  count : ∀ f, 0<R f → (F.FT f).refcount.toNat = R f ∧ R f<2^32
  closes : ∀ f, F.log.count (.opened f) = F.log.count (.closed f)+(if 0<R f then 1 else 0)

noncomputable def State.refs (s : State) : FcbRef → Nat := Kernel.refs s.files (inflight s.thread)

theorem Emits.closes {R R' : FcbRef → Nat} {es : List StreamEvent} {log : List StreamEvent}
    (he : Emits R R' es) {f : FcbRef}
    (hl : log.count (.opened f) = log.count (.closed f)+(if 0<R f then 1 else 0)) :
    (log++es).count (.opened f) = (log++es).count (.closed f)+(if 0<R' f then 1 else 0) := by
  obtain ⟨hc,ho⟩ := he f
  rw [List.count_append, List.count_append, hc, ho, hl]
  split_ifs <;> omega

theorem next_kept {s' : State} {a : Label} (h : Inv s L fl) (hs : system.next s a = some s') :
    Kept s s' := by
  simp only [system] at hs
  split at hs
  · exact step_kept h ‹_› hs
  · cases hs

theorem reachable_closes (hr : system.Reachable s) (f : FcbRef) :
    s.files.log.count (.opened f) =
      s.files.log.count (.closed f)+(if 0 < s.refs f then 1 else 0) := by
  induction hr with
  | init h =>
    obtain ⟨ports,argl,args,-,hs⟩ := h
    obtain ⟨hlog,hz⟩ := boot_refs ports argl args
    rw [hs, State.refs, hlog, hz f]
    rfl
  | step hr h ih =>
    obtain ⟨L,fl,hinv⟩ := reachable_inv hr
    obtain ⟨es,hlog,he⟩ := (next_kept hinv h).2.emits
    rw [hlog]
    exact he.closes ih

/-- In every run the references to the FCBs are counted, and a section calls Close on
the streams of exactly the FCBs that lose their last reference in it. -/
theorem fcb_references_counted (hr : system.Reachable s) :
    Balanced s.files s.refs ∧ ∀ a s', system.next s a = some s' →
      ∃ es, s'.files.log = s.files.log++es ∧ Emits s.refs s'.refs es := by
  obtain ⟨L,fl,h⟩ := reachable_inv hr
  obtain ⟨ffl,hc⟩ := h.files
  refine ⟨⟨hc.ring.ring.linked,⟨ffl,hc.ring.ring.lists.path (),hc.ring.nodup,hc.free⟩,?_,
    reachable_closes hr⟩,fun a s' hs => (next_kept h hs).2.emits⟩
  intro f hf
  have := refs_lt (F := s.files) (inflight_le s.thread) f
  exact ⟨hc.count f hf,by unfold State.refs; omega⟩

theorem boot_shared_counted : ∃ (s : State) (r : PcbRef) (f : FcbRef), r≠initPid ∧
    s.files.FIDT initPid 0 = some f ∧ s.files.FIDT r 0 = some f ∧ Balanced s.files s.refs := by
  obtain ⟨s1,s,r,f,hopen,hexec,-,-,-,hri,hinit,hr⟩ := boot_shares
  exact ⟨s,r,f,hri,hinit,hr,(fcb_references_counted ((boot_reachable.step hopen).step hexec)).1⟩

def NothingToWait (PT : PcbRef → PCB) (p : PcbRef) (cpid : Int) : Prop :=
  if cpid = NOPROC then ¬HasChild PT p
  else ∀ c : PcbRef, (c.val : Int) = cpid → (PT c).pstate = .FREE ∨ (PT c).parent≠some p

theorem Inv.waitChild_noproc (h : Inv s L fl) (p : PcbRef) (cpid : Int) (status : Bool) :
    (NothingToWait s.procs.PT p cpid → sysWaitChild s p cpid status = some (s,some (NOPROC,none))) ∧
      ∀ s' stored, sysWaitChild s p cpid status = some (s',some (NOPROC,stored)) →
        NothingToWait s.procs.PT p cpid := by
  by_cases hcp : cpid = NOPROC
  · subst hcp
    have he : sysWaitChild s p NOPROC status = waitForAnyChild s p status (.waitAny status) := by
      simp [sysWaitChild]
    rw [he, NothingToWait, if_pos rfl]
    rcases waitForAnyChild_cases h p status (.waitAny status) with ⟨hn,ha⟩ | ⟨hc,-,ha⟩ |
      ⟨c,hz,hpar,ha⟩
    · exact ⟨fun _ => ha,fun _ _ _ => hn⟩
    · refine ⟨fun hn => absurd hc hn,fun s' stored hs => ?_⟩
      rw [ha] at hs
      cases hs
    · refine ⟨fun hn => absurd ⟨c,by simp [hz],hpar⟩ hn,fun s' stored hs => ?_⟩
      rw [ha] at hs
      simp only [Option.some.injEq, Prod.mk.injEq] at hs
      exact absurd hs.2.1 (getPid_ne_noproc c)
  · have he : sysWaitChild s p cpid status = some (waitForSpecificChild s p cpid status) := by
      simp [sysWaitChild, hcp]
    rw [he, NothingToWait, if_neg hcp, Option.some.injEq]
    simp only [Option.some.injEq]
    unfold waitForSpecificChild
    split
    · rename_i hrange
      set c : PcbRef := ⟨cpid.toNat,by omega⟩ with hc
      have hval : ∀ d : PcbRef, (d.val : Int) = cpid → d = c := by
        intro d hd
        apply Fin.ext
        simp only [hc]
        omega
      by_cases hfree : (s.procs.PT c).pstate = .FREE
      · simp only [getPcb, hfree, if_true]
        exact ⟨fun _ => trivial,fun _ _ _ d hd => Or.inl (by rw [hval d hd, hfree])⟩
      · simp only [getPcb, hfree, if_false]
        split
        · rename_i hpar
          exact ⟨fun _ => rfl,fun _ _ _ d hd => Or.inr (by rw [hval d hd]; exact hpar)⟩
        · rename_i hpar
          have hcv : (c.val : Int) = cpid := by
            simp only [hc]
            omega
          refine ⟨fun hn => ?_,fun s' stored hs => ?_⟩
          · rcases hn c hcv with hf | hp
            · exact absurd hf hfree
            · exact absurd hp hpar
          · unfold awaitChild at hs
            split at hs
            · cases hs
            · simp only [Prod.mk.injEq, Option.some.injEq] at hs
              exact absurd hs.2.1 (getPid_ne_noproc c)
    · rename_i hrange
      refine ⟨fun _ => rfl,fun _ _ _ d hd => ?_⟩
      have := d.isLt
      omega

theorem resume_log {t : Thread} {status : Bool} (hp : s.thread p = some t)
    (ht : t = .waitAny status ∨ ∃ c, t = .waitChild c status) {valid : Nat → Bool} {s' : State}
    (hs : resume s p valid = some s') : s'.log = s.log ∨
      ∃ ret stored, ret≠NOPROC ∧ s'.log = s.log++[.wait p ret status stored] := by
  rw [resume, hp, Option.bind_some] at hs
  rcases ht with rfl | ⟨c,rfl⟩
  · obtain ⟨x,hx,rfl⟩ := Option.map_eq_some_iff.mp hs
    unfold awaitAny at hx
    split at hx
    · cases hx
      exact Or.inl rfl
    · split at hx
      · cases hx
      · split at hx
        · cases hx
          exact Or.inr ⟨_,_,getPid_ne_noproc _,rfl⟩
        · cases hx
  · rw [resumeFrom, Option.some.injEq] at hs
    unfold awaitChild at hs
    split at hs
    · exact Or.inl (by rw [← hs]; rfl)
    · exact Or.inr ⟨_,_,getPid_ne_noproc c,by rw [← hs]; rfl⟩

/-- In every run each incarnation of a pid is there until one WaitChild, called by its
parent at that time, has returned its pid and exit value; WaitChild returns NOPROC
exactly when it has nothing to wait for, and then changes nothing. -/
theorem exits_reported_once (hr : system.Reachable s) :
    (ledger s.log).Sound ∧ (ledger s.log).Matches s.procs.PT ∧
      (∀ p cpid status,
        ((∃ s' stored, sysWaitChild s p cpid status = some (s',some (NOPROC,stored))) ↔
          NothingToWait s.procs.PT p cpid) ∧
        (NothingToWait s.procs.PT p cpid →
          sysWaitChild s p cpid status = some (s,some (NOPROC,none)))) ∧
      ∀ p t status, s.thread p = some t → (t = .waitAny status ∨ ∃ c, t = .waitChild c status) →
        ∀ valid s', resume s p valid = some s' → s'.log = s.log ∨
          ∃ ret stored, ret≠NOPROC ∧ s'.log = s.log++[.wait p ret status stored] := by
  obtain ⟨L,fl,h⟩ := reachable_inv hr
  refine ⟨h.sound,h.agree,fun p cpid status => ?_,fun p t status hp ht valid s' hs =>
    resume_log hp ht hs⟩
  obtain ⟨hno,hret⟩ := h.waitChild_noproc p cpid status
  exact ⟨⟨fun ⟨s',stored,hs⟩ => hret s' stored hs,fun hn => ⟨s,none,hno hn⟩⟩,hno⟩

theorem Inv.waitChild_reports (h : Inv s L fl) {r : PcbRef} {v : Int}
    (hlog : s.log = childExitLog r v) : ∃ P, sysWaitChild s initPid r.val true =
      some ({ s with procs := P },some (getPid (some r),some v)) := by
  obtain ⟨hz,hpar,hv,-⟩ := h.exited_child hlog
  have hne : (r.val : Int)≠NOPROC := getPid_ne_noproc r
  have hrange : 0≤(r.val : Int) ∧ (r.val : Int)<MAX_PROC := by
    have := r.isLt
    omega
  refine ⟨(cleanupZombie s.procs r true).1,?_⟩
  rw [sysWaitChild, if_pos hne, waitForSpecificChild, dif_pos hrange]
  simp only [Int.toNat_natCast, Fin.eta, getPcb_some (P := s.procs) (p := r) (by simp [hz]), hpar,
    ne_eq, not_true_eq_false, if_false, awaitChild, hz, reduceCtorEq]
  simp only [cleanupZombie, if_true, hv]

theorem boot_child_reported : ∃ r s, system.Reachable s ∧
    s.log = childExitLog r 5++[.wait initPid r.val true (some 5)] ∧
      (ledger s.log).Sound ∧ (ledger s.log).Matches s.procs.PT := by
  obtain ⟨r,s,-,hreach,hp,hlog⟩ := boot_child_exits 5
  obtain ⟨L,fl,h⟩ := reachable_inv hreach
  obtain ⟨P,hwait⟩ := h.waitChild_reports hlog
  have hnext : system.next s (.waitChild initPid r.val true) =
      some ({ s with procs := P }.record (.wait initPid r.val true (some 5))) := by
    rw [system_next (a := .waitChild initPid r.val true) hp, step, hwait, Option.map_some,
      returnWait, getPid]
  have hr := hreach.step hnext
  obtain ⟨hsound,hmatch,-⟩ := exits_reported_once hr
  exact ⟨r,_,hr,by rw [State.record, hlog],hsound,hmatch⟩

/-- No thread sleeps on its child_exit in spite of an exited child it waits for. -/
theorem no_lost_child_exit (hr : system.Reachable s) (p : PcbRef) :
    (p∈s.childExit p ↔ s.stopped p = true ∧ ∃ t, s.thread p = some t ∧ t.childWait = true) ∧
    (s.stopped p = true →
      (∀ status, s.thread p = some (.waitAny status) →
        isRlistEmpty s.procs.heap (.exitedList p) = true) ∧
      (∀ v, s.thread p = some (.exitWait v) →
        isRlistEmpty s.procs.heap (.exitedList p) = true) ∧
      ∀ c status, s.thread p = some (.waitChild c status) → (s.procs.PT c).pstate≠.ZOMBIE) := by
  obtain ⟨L,fl,h⟩ := reachable_inv hr
  have hempty : NoExited s.procs.PT p → isRlistEmpty s.procs.heap (.exitedList p) = true := by
    intro hn
    have hl : L (.exited p) = [] := List.eq_nil_iff_forall_not_mem.mpr fun c hm => by
      obtain ⟨hz,hpar⟩ := (h.table.exited p c).mp hm
      exact hn c hz hpar
    simp [h.table.family.isEmpty_exited, hl]
  refine ⟨by simpa using h.ring p p,fun hst => ⟨fun status ht => ?_,fun v ht => ?_,fun c status ht => ?_⟩⟩
  · exact hempty ((h.waiting p _ ht).2 hst)
  · exact hempty ((h.waiting p _ ht).2.2 hst)
  · have := (h.waiting p _ ht).2.2 hst
    simp [this]

theorem boot_sleeping_not_lost : (sleeping (boot 0 0 none)).stopped initPid = true ∧
    isRlistEmpty (sleeping (boot 0 0 none)).procs.heap (.exitedList initPid) = true := by
  obtain ⟨hst,ht⟩ := sleeping_waits (boot 0 0 none)
  exact ⟨hst,((no_lost_child_exit boot_sleeping_reachable initPid).2 hst).1 true ht⟩

def LeavesExitLoop (s : State) (v : Int) (s' : State) : Prop :=
  (s.thread initPid = some .user ∧ exitLoop initPid v childFuel s = some (s',true)) ∨
  (s.thread initPid = some (.exitWait v) ∧ s.stopped initPid = false ∧ ∃ s1 ret stored,
    awaitAny (s.setThread initPid (some .user)) initPid false (.exitWait v) =
      some (s1,some (ret,stored)) ∧
    exitLoop initPid v childFuel (s1.record (.wait initPid ret false stored)) = some (s',true))

structure Alone (s : State) : Prop where
  free : ∀ p : PcbRef, 1<p.val → (s.procs.PT p).pstate = .FREE
  noChildren : isRlistEmpty s.procs.heap (.childrenList initPid) = true
  noExited : isRlistEmpty s.procs.heap (.exitedList initPid) = true

theorem Inv.alone (h : Inv s L fl) (hn : L (.children initPid) = []) : Alone s := by
  have hfree : ∀ p : PcbRef, 1<p.val → (s.procs.PT p).pstate = .FREE :=
    fun p hp => h.table.free_of_no_children h.forest hn hp
  have hexited : L (.exited initPid) = [] := List.eq_nil_iff_forall_not_mem.mpr fun c hm => by
    obtain ⟨hz,hpar⟩ := (h.table.exited initPid c).mp hm
    have hc := (h.table.children initPid c).mpr ⟨by simp [hz],hpar⟩
    simp [hn] at hc
  exact ⟨hfree,by simp [h.table.family.isEmpty_children, hn],
    by simp [h.table.family.isEmpty_exited, hexited]⟩

theorem exitLoop_alone (h : Inv s L fl) (hp : s.thread initPid = some .user) {v : Int} {s' : State}
    (hs : exitLoop initPid v childFuel s = some (s',true)) : Alone s' := by
  have hfuel : (L (.children initPid)).length<childFuel :=
    Nat.lt_succ_of_le (h.table.length_le (.children initPid))
  obtain ⟨s1,b,L1,fl1,hloop,hinv,-,hb⟩ := exitLoop_inv v h hp hfuel
  cases hs.symm.trans hloop
  exact hinv.alone (hb rfl).1

/-- When init leaves its loop it is alone, so it neither reparents nor appends to its own
list; and the scheduler stops only once init is a zombie and no other process is left. -/
theorem init_exits_last (hr : system.Reachable s) :
    (∀ v s', LeavesExitLoop s v s' → Alone s' ∧
      ∀ o P files, P.heap = s'.procs.heap → reparent o initPid childFuel P = some P ∧
        adoptExited { s' with procs := P, files := files } o initPid =
          some { s' with procs := P, files := files }) ∧
    (s.activeThreads = 0 → (s.procs.PT initPid).pstate = .ZOMBIE ∧
      ∀ p : PcbRef, 1<p.val → (s.procs.PT p).pstate = .FREE) := by
  obtain ⟨L,fl,h⟩ := reachable_inv hr
  refine ⟨fun v s' hleave => ?_,fun hact => ?_⟩
  · have halone : Alone s' := by
      rcases hleave with ⟨hp,hs⟩ | ⟨hp,hst,s1,ret,stored,ha,hs⟩
      · exact exitLoop_alone h hp hs
      · have huser : (s.setThread initPid (some .user)).thread initPid = some .user := by
          simp [State.setThread]
        obtain ⟨hinv,-⟩ := h.wake hp rfl hst
        rcases awaitAny_eq hinv initPid false (.exitWait v) with ⟨-,hw⟩ | ⟨c,hz,hpar,hw⟩
        · rw [hw] at ha
          cases ha
        · rw [hw] at ha
          cases ha
          obtain ⟨L1,hinv1,-⟩ := reap_inv hinv huser hz hpar false
          exact exitLoop_alone hinv1 huser hs
    refine ⟨halone,fun o P files hP => ⟨?_,?_⟩⟩
    · rw [childFuel, reparent, hP, halone.noChildren, if_pos rfl]
    · rw [adoptExited]
      simp only [hP, halone.noExited, if_true]
  · have hz : liveThreads s.thread = 0 := by
      have := h.active
      omega
    have hnone : s.thread initPid = none := by
      refine Option.eq_none_iff_forall_ne_some.mpr fun t ht => ?_
      exact tally_eq_zero.mp hz initPid (by rw [ht]; rfl)
    have hdead : (s.procs.PT initPid).pstate≠.ALIVE := fun ha => h.init ha hnone
    refine ⟨?_,h.last hdead⟩
    have hroot := (h.forest.root initPid (by rw [initPid_val])).1
    cases hs : (s.procs.PT initPid).pstate with
    | FREE => exact absurd hs hroot
    | ALIVE => exact absurd hs hdead
    | ZOMBIE => rfl

theorem Inv.leaves_reaped (h : Inv s L fl) (hp : s.thread initPid = some .user) {r : PcbRef}
    {v : Int} (hlog : s.log = childExitLog r v) (w : Int) :
    LeavesExitLoop s w ((reap s initPid r false).record (.wait initPid NOPROC false none)) := by
  obtain ⟨hz,hpar,-,honly⟩ := h.exited_child hlog
  obtain ⟨hother,hfree⟩ := cleanupZombie_PT s.procs r false
  obtain ⟨L',h',-⟩ := reap_inv h hp hz hpar false
  have hchild : HasChild s.procs.PT initPid := ⟨r,by simp [hz],hpar⟩
  have hnone : ¬HasChild (reap s initPid r false).procs.PT initPid := by
    rintro ⟨c,hc,hcpar⟩
    have hcr : c≠r := fun he => hc (he ▸ hfree)
    rw [reap, State.record] at hc hcpar
    rw [hother c hcr] at hc hcpar
    exact hcr (honly c hc hcpar)
  refine Or.inl ⟨hp,?_⟩
  have hfirst : waitForAnyChild s initPid false (.exitWait w) =
      some ({ s with procs := (cleanupZombie s.procs r false).1 },
        some (getPid (some r),(cleanupZombie s.procs r false).2)) := by
    rcases waitForAnyChild_cases h initPid false (.exitWait w) with ⟨hn,-⟩ | ⟨-,hn,-⟩ |
      ⟨c,hzc,hcpar,hw⟩
    · exact absurd hchild hn
    · exact absurd hpar (hn r hz)
    · obtain rfl := honly c (by simp [hzc]) hcpar
      exact hw
  have hsecond : waitForAnyChild (reap s initPid r false) initPid false (.exitWait w) =
      some (reap s initPid r false,some (NOPROC,none)) := by
    rcases waitForAnyChild_cases h' initPid false (.exitWait w) with ⟨-,hw⟩ | ⟨hc,-⟩ |
      ⟨c,hzc,hcpar,-⟩
    · exact hw
    · exact absurd hc hnone
    · exact absurd ⟨c,by simp [hzc],hcpar⟩ hnone
  rw [childFuel, exitLoop, hfirst, Option.bind_some]
  simp only [getPid_ne_noproc r, ne_eq, not_false_eq_true, if_true]
  rw [show MAX_PROC = 65535+1 from rfl, exitLoop]
  change (waitForAnyChild (reap s initPid r false) initPid false (.exitWait w)).bind _ = _
  rw [hsecond, Option.bind_some]
  simp only [ne_eq, not_true_eq_false, if_false]

theorem boot_exits_last : ∃ r s s', system.Reachable s ∧ s.log = childExitLog r 5 ∧
    LeavesExitLoop s 7 s' ∧
    s'.log = childExitLog r 5++[.wait initPid r.val false none,.wait initPid NOPROC false none] ∧
      Alone s' := by
  obtain ⟨r,s,-,hreach,hp,hlog⟩ := boot_child_exits 5
  obtain ⟨L,fl,h⟩ := reachable_inv hreach
  have hleave := h.leaves_reaped hp hlog 7
  refine ⟨r,s,_,hreach,hlog,hleave,?_,((init_exits_last hreach).1 7 _ hleave).1⟩
  rw [State.record, reap, State.record, hlog]
  rfl

end
end TinyOS.Kernel
