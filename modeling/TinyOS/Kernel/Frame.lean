import TinyOS.Kernel.Execute

/-! One Exec: all that it makes of a free PCB, and all that it leaves alone. -/
namespace TinyOS.Kernel
open RList Tally

section
variable {F : Files} {c p q r : PcbRef} {L : Kin → List PcbRef} {fl : List PcbRef}

def heldIn (l : List Fid) (F : Files) (q : PcbRef) (f : FcbRef) : Nat :=
  l.countP fun i => F.FIDT q i = some f

def heldSlots (F : Files) : PcbRef → FcbRef → Nat := heldIn (List.finRange MAX_FILEID) F

def Files.addRefs (F : Files) (f : FcbRef) (n : Nat) : FCB :=
  { F.FT f with refcount := (F.FT f).refcount+UInt32.ofNat n }

theorem inheritFids_FT (hcp : c≠p) (l : List Fid) (F : Files) :
    (l.foldl (inheritFid c p) F).heap = F.heap ∧ (l.foldl (inheritFid c p) F).log = F.log ∧
      ∀ f, (l.foldl (inheritFid c p) F).FT f = F.addRefs f (heldIn l F c f) := by
  induction l generalizing F with
  | nil => exact ⟨rfl,rfl,fun f => by simp [Files.addRefs, heldIn]⟩
  | cons fid l ih =>
    obtain ⟨hheap,hlog,hFT⟩ := ih (inheritFid c p F fid)
    have hc : (inheritFid c p F fid).FIDT c = F.FIDT c := by
      unfold inheritFid
      cases F.FIDT c fid <;> simp [incref, Files.modFCB, Files.setFid, hcp]
    have hstep : (inheritFid c p F fid).heap = F.heap ∧ (inheritFid c p F fid).log = F.log ∧
        ∀ f, (inheritFid c p F fid).FT f = F.addRefs f (if F.FIDT c fid = some f then 1 else 0) := by
      unfold inheritFid
      cases hg : F.FIDT c fid with
      | none => simp [Files.setFid, Files.addRefs]
      | some g =>
        refine ⟨rfl,rfl,fun f => ?_⟩
        by_cases hgf : f = g
        · subst hgf
          simp [incref, Files.modFCB, Files.setFid, Files.addRefs]
        · simp [incref, Files.modFCB, Files.setFid, Files.addRefs, hgf, Ne.symm hgf]
    refine ⟨hheap.trans hstep.1,hlog.trans hstep.2.1,fun f => ?_⟩
    rw [List.foldl_cons, hFT, heldIn, hc, heldIn, List.countP_cons]
    by_cases hf : F.FIDT c fid = some f
    · simp [Files.addRefs, hstep.2.2 f, hf, UInt32.add_assoc,
        UInt32.add_comm (UInt32.ofNat _) 1]
    · simp [Files.addRefs, hstep.2.2 f, hf]

theorem exists_held {l : List Fid} {f : FcbRef} (h : heldIn l F q f≠0) :
    ∃ i, F.FIDT q i = some f := by
  obtain ⟨i,-,hi⟩ := List.countP_pos_iff.mp (Nat.pos_of_ne_zero h)
  exact ⟨i,of_decide_eq_true hi⟩

theorem addRefs_toNat {n : FcbRef → Nat} (h : FilesOk F n) (hn : ∀ f, n f≤MAX_PROC) (q : PcbRef)
    (f : FcbRef) : (F.addRefs f (heldSlots F q f)).refcount.toNat =
      (F.FT f).refcount.toNat+heldSlots F q f := by
  by_cases hz : heldSlots F q f = 0
  · simp [Files.addRefs, hz]
  · obtain ⟨i,hi⟩ := exists_held hz
    obtain ⟨fl,hc⟩ := h
    have hcount := hc.count f (refs_pos hi)
    have hslots : slots F f≤Fintype.card (PcbRef × Fid) := tally_le_card _ _
    have hheld : heldSlots F q f≤(List.finRange MAX_FILEID).length := List.countP_le_length
    have hfl := hn f
    simp only [Fintype.card_prod, Fintype.card_fin, MAX_PROC, MAX_FILEID, List.length_finRange]
      at hslots hfl hheld
    unfold refs at hcount
    simp only [Files.addRefs, UInt32.toNat_add, UInt32.toNat_ofNat']
    omega

theorem Inv.no_kin {s : State} (h : Inv s L fl) (hr : (s.procs.PT r).pstate = .FREE) :
    L (.children r) = [] ∧ L (.exited r) = [] := by
  have hnone : ∀ c, (s.procs.PT c).pstate≠.FREE → (s.procs.PT c).parent≠some r := by
    intro c hc hp
    by_cases hle : c.val≤1
    · rw [(h.forest.root c hle).2] at hp
      cases hp
    · obtain ⟨p,hpar,ha⟩ := h.forest.parent (by omega) hc
      obtain rfl : p = r := Option.some.inj (hpar.symm.trans hp)
      rw [hr] at ha
      cases ha
  constructor
  · refine List.eq_nil_iff_forall_not_mem.mpr fun c hc => ?_
    obtain ⟨hs,hp⟩ := (h.table.children r c).mp hc
    exact hnone c hs hp
  · refine List.eq_nil_iff_forall_not_mem.mpr fun c hc => ?_
    obtain ⟨hs,hp⟩ := (h.table.exited r c).mp hc
    exact hnone c (by simp [hs]) hp

end

/-- What Exec makes of the free PCB r for its caller q, and that the rest stays. -/
structure Executed (m : Machine) (q : PcbRef) (task : Task) (argl : Nat)
    (args : Option (List UInt8)) (r : PcbRef) (m' : Machine) : Prop where
  free : (m.kernel.procs.PT r).pstate = .FREE
  alive : (m'.kernel.procs.PT r).pstate = .ALIVE
  parent : (m'.kernel.procs.PT r).parent = some q
  length : (m'.kernel.procs.PT r).argl = argl
  copied : (m'.kernel.procs.PT r).args = args.map (List.take argl)
  /-- Whatever others do, the copy stays until the new process acts itself. -/
  kept : ∀ as m2, (∀ a∈as, a.proc≠some r) → machine.run m' as = some m2 →
    (m2.kernel.procs.PT r).args = args.map (List.take argl)
  task : m'.mainTask = Function.update m.mainTask r (some task)
  pcbs : ∀ p, p≠r → m'.kernel.procs.PT p = m.kernel.procs.PT p
  rings : ∃ L fl, Table m.kernel.procs L (r::fl) ∧ (∀ k, r∉L k) ∧ L (.children r) = [] ∧
    L (.exited r) = [] ∧ q≠r ∧
    Table m'.kernel.procs (Function.update L (.children q) (r::L (.children q))) fl
  fids : ∀ i, m'.kernel.files.FIDT r i = m.kernel.files.FIDT q i
  tables : ∀ p, p≠r → m'.kernel.files.FIDT p = m.kernel.files.FIDT p
  refcount : ∀ f, (m'.kernel.files.FT f).refcount.toNat =
    (m.kernel.files.FT f).refcount.toNat+heldSlots m.kernel.files q f
  stream : ∀ f, (m'.kernel.files.FT f).streamobj = (m.kernel.files.FT f).streamobj ∧
    (m'.kernel.files.FT f).streamfunc = (m.kernel.files.FT f).streamfunc
  freelist : m'.kernel.files.heap = m.kernel.files.heap ∧ m'.kernel.files.log = m.kernel.files.log
  noThread : m.kernel.thread r = none
  thread : m'.kernel.thread = Function.update m.kernel.thread r (some .user)
  ready : m'.kernel.stopped = Function.update m.kernel.stopped r false
  active : m'.kernel.activeThreads = m.kernel.activeThreads+1
  waiters : m'.kernel.childExit = m.kernel.childExit ∧ m'.kernel.rxReady = m.kernel.rxReady
  exited : m'.kernel.exited = m.kernel.exited
  mem : m'.mem = m.mem

theorem exec_kernel {m : Machine} {q r : PcbRef} {L : Kin → List PcbRef} {fl : List PcbRef}
    (h : Table m.kernel.procs L (r::fl)) (hr : 1<r.val) (task : Task) (argl : Nat)
    (args : Option (List UInt8)) {P : Procs}
    (hP : P = copyArgs (inheritParent (acquirePCB m.kernel.procs).1 q r) r argl args) :
    (m.exec q (some task) argl args).1.kernel = startMainThread
      ({ m.kernel with procs := P, files := inheritFIDT m.kernel.files q r }.record
        (.exec (some q) r)) r := by
  have hle : ¬r.val≤1 := by omega
  change (sysExec m.kernel q true argl args).1 = _
  rw [sysExec_cons h]
  simp only [if_neg hle, ← hP, if_true]

theorem executed {m : Machine} (hr : machine.Reachable m) {q r : PcbRef}
    (hq : m.kernel.thread q = some .user) {L : Kin → List PcbRef} {fl : List PcbRef}
    (h : Inv m.kernel L (r::fl)) (task : Task) (argl : Nat) (args : Option (List UInt8)) :
    Executed m q task argl args r (m.exec q (some task) argl args).1 := by
  have hr' : machine.Reachable (m.exec q (some task) argl args).1 :=
    .step (a := .exec q (some task) argl args) hr (by simp [machine, Machine.next, hq])
  have hfree : (m.kernel.procs.PT r).pstate = .FREE := (h.table.free r).mp (by simp)
  have hv : 1 < r.val := by
    by_contra hle
    exact (h.forest.root r (by omega)).1 hfree
  have hle : ¬r.val≤1 := by omega
  have hqr : q≠r := by
    rintro rfl
    have := h.alive q (by simp [hq])
    rw [hfree] at this
    cases this
  have hthread : m.kernel.thread r = none := by
    by_contra hne
    simp [h.alive r hne] at hfree
  have hkin : ∀ k, r∉L k := by
    intro k
    cases k with
    | children p => exact h.table.not_mem_children hfree p
    | exited p => exact h.table.not_mem_exited (by simp [hfree]) p
  obtain ⟨hchildren,hexited⟩ := h.no_kin hfree
  have htable := h.table.exec q argl args
  rw [if_neg hle] at htable
  set P := copyArgs (inheritParent (acquirePCB m.kernel.procs).1 q r) r argl args with hP
  obtain ⟨hother,hra,hrpar⟩ := exec_PT h.table hv q argl args hP
  have hargs : (P.PT r).argl = argl ∧ (P.PT r).args = args.map (List.take argl) := by
    simp [hP, copyArgs, Procs.modPCB]
  obtain ⟨-,hown,hnew⟩ := h.files.inheritFIDT hqr (inflight_le _) (h.fids r (by simp [hfree]))
  obtain ⟨hheap,hlog,hFT⟩ := inheritFids_FT hqr (List.finRange MAX_FILEID) m.kernel.files
  have hk := exec_kernel h.table hv task argl args hP
  have hPT : (m.exec q (some task) argl args).1.kernel.procs.PT = P.PT := by
    rw [hk]
    rfl
  have hkept : ∀ as m2, (∀ a∈as, a.proc≠some r) →
      machine.run (m.exec q (some task) argl args).1 as = some m2 →
      (m2.kernel.procs.PT r).args = args.map (List.take argl) := by
    intro as m2 has hrun
    have hkeep := run_keepsArgs (q := r) hr' as has hrun
    rw [hkeep.args (by rw [hPT, hra]), hPT, hargs.2]
  have hFT' : ∀ f, (m.exec q (some task) argl args).1.kernel.files.FT f =
      m.kernel.files.addRefs f (heldSlots m.kernel.files q f) := by
    intro f
    rw [hk]
    exact hFT f
  exact {
    free := hfree
    alive := by rw [hPT, hra]
    parent := by rw [hPT, hrpar]
    length := by rw [hPT, hargs.1]
    copied := by rw [hPT, hargs.2]
    kept := hkept
    task := by simp only [Machine.exec, h.table.acquire_cons]
    pcbs p hp := by rw [hPT, hother p hp]
    rings := ⟨L,fl,h.table,hkin,hchildren,hexited,hqr,by rw [hk]; exact htable⟩
    fids i := by rw [hk]; exact hnew i
    tables p hp := by rw [hk]; exact hown p hp
    refcount f := by rw [hFT', addRefs_toNat h.files (inflight_le _) q f]
    stream f := by rw [hFT']; exact ⟨rfl,rfl⟩
    freelist := by rw [hk]; exact ⟨hheap,hlog⟩
    noThread := hthread
    thread := by rw [hk]; rfl
    ready := by rw [hk]; rfl
    active := by rw [hk]; rfl
    waiters := by rw [hk]; exact ⟨rfl,rfl⟩
    exited := by rw [hk]; rfl
    mem := rfl }

/-- With all PCBs in use Exec does nothing, otherwise it makes a process and nothing else. -/
theorem exec_frame {m : Machine} (hr : machine.Reachable m) {q : PcbRef}
    (hq : m.kernel.thread q = some .user) (task : Task) (argl : Nat) (args : Option (List UInt8)) :
    ((∀ p, (m.kernel.procs.PT p).pstate≠.FREE) →
      m.exec q (some task) argl args = (m,NOPROC)) ∧
    ((∃ p, (m.kernel.procs.PT p).pstate = .FREE) →
      ∃ r : PcbRef, (m.exec q (some task) argl args).2 = r.val ∧
        Executed m q task argl args r (m.exec q (some task) argl args).1) := by
  obtain ⟨L,fl,h⟩ := reachable_inv (machine_kernel hr)
  cases fl with
  | nil =>
    refine ⟨fun _ => ?_,fun ⟨p,hp⟩ => ?_⟩
    · simp only [Machine.exec, sysExec, h.table.acquire_nil, getPid]
    · simpa using (h.table.free p).mpr hp
  | cons r fl =>
    have hfree : (m.kernel.procs.PT r).pstate = .FREE := (h.table.free r).mp (by simp)
    exact ⟨fun hn => absurd hfree (hn r),
      fun _ => ⟨r,exec_pid h.table _ _ _,executed hr hq h task argl args⟩⟩

theorem exec_frame_boot : ∃ r : PcbRef,
    (bootMachine.exec initPid (some .execWrapper) 2 (some [104,105])).2 = r.val ∧
      Executed bootMachine initPid .execWrapper 2 (some [104,105]) r
        (bootMachine.exec initPid (some .execWrapper) 2 (some [104,105])).1 := by
  have hk : bootMachine.kernel = boot 0 0 none := by rw [bootMachine]
  have hinit : system.init bootMachine.kernel := ⟨0,0,none,Nat.zero_le _,hk⟩
  have huser : bootMachine.kernel.thread initPid = some .user := by rw [hk, boot_user]
  obtain ⟨r,fl,htable,-,-⟩ := boot_free
  have hfree : (bootMachine.kernel.procs.PT r).pstate = .FREE := by
    rw [hk]
    exact (htable.free r).mp List.mem_cons_self
  obtain ⟨-,hmade⟩ := exec_frame (.init hinit) huser .execWrapper 2 (some [104,105])
  exact hmade ⟨r,hfree⟩

end TinyOS.Kernel
