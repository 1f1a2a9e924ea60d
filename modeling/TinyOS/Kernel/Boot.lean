import TinyOS.Kernel.Steps

/-! The kernel after boot, and the invariant of every reachable state. -/
namespace TinyOS.Kernel
open RList Tally

section
variable {s : State} {L : Kin → List PcbRef} {fl : List PcbRef} {p r : PcbRef}

theorem pushFree_spec (l : List PcbRef) (hl : l.Nodup) :
    FreeChain (l.foldr pushFree initializePCB).PT (l.foldr pushFree initializePCB).pcbFreelist l ∧
      (l.foldr pushFree initializePCB).heap = initializePCB.heap ∧
      (l.foldr pushFree initializePCB).processCount = 0 ∧
      ∀ p, ((l.foldr pushFree initializePCB).PT p).pstate = .FREE ∧
        ((l.foldr pushFree initializePCB).PT p).args = none := by
  induction l with
  | nil => exact ⟨rfl,rfl,rfl,fun _ => ⟨rfl,rfl⟩⟩
  | cons p l ih =>
    obtain ⟨hp,hl⟩ := List.nodup_cons.mp hl
    obtain ⟨hchain,hheap,hcount,hfree⟩ := ih hl
    rw [List.foldr_cons]
    set P := l.foldr pushFree initializePCB with hP
    refine ⟨⟨rfl,?_⟩,hheap,hcount,?_⟩
    · have hpar : ((pushFree p P).PT p).parent = P.pcbFreelist := by simp [pushFree, Procs.modPCB]
      rw [hpar]
      refine hchain.congr fun q hq => ?_
      have hqp : q≠p := fun he => hp (he ▸ hq)
      simp [pushFree, Procs.modPCB, hqp]
    · intro q
      by_cases hq : q = p
      · subst hq
        simpa [pushFree, Procs.modPCB] using hfree q
      · simpa [pushFree, Procs.modPCB, hq] using hfree q

theorem initial_family : Family initializePCB.heap fun _ => [] := by
  refine ⟨⟨⟨fun _ => rfl,fun _ => rfl⟩,⟨fun _ => rfl,by simp,by simp,?_,by simp,fun _ _ _ => rfl⟩⟩,
    rfl⟩
  intro j k hjk
  cases j <;> cases k <;> simp_all [kinList]

theorem initial_table {l : List PcbRef} (hl : l.Nodup) (hall : ∀ p, p∈l) :
    Table (l.foldr pushFree initializePCB) (fun _ => []) l := by
  obtain ⟨hchain,hheap,hcount,hfree⟩ := pushFree_spec l hl
  have hlen : l.length = MAX_PROC := by
    have := List.toFinset_card_of_nodup hl
    rw [← this, Finset.eq_univ_of_forall (fun p => List.mem_toFinset.mpr (hall p))]
    simp
  refine ⟨?_,hchain,hl,?_,?_,?_,?_,fun p _ => (hfree p).2⟩
  · rw [hheap]
    exact initial_family
  · intro p
    simp [hall p, (hfree p).1]
  · rw [hcount, hlen]
    rfl
  · intro p c
    simp [(hfree c).1]
  · intro p c
    simp [(hfree c).1]

theorem finRange_two (n : Nat) : ∃ l, List.finRange (n+2) = 0::1::l := by
  rw [List.finRange_succ, List.finRange_succ, List.map_cons]
  exact ⟨_,rfl⟩

theorem finRange_eq : ∃ l, List.finRange MAX_PROC = 0::initPid::l := finRange_two 65534

theorem Ledger.sound_nil : (ledger []).Sound := by
  constructor <;> simp [ledger]

theorem exec_root_PT {P : Procs} (h : Table P L (r::fl)) (hr : r.val≤1) (p : PcbRef) (argl : Nat)
    (args : Option (List UInt8)) {P' : Procs}
    (hP : P' = copyArgs (inheritParent (acquirePCB P).1 p r) r argl args) :
    Table P' L fl ∧ (∀ q, q≠r → P'.PT q = P.PT q) ∧ (P'.PT r).pstate = .ALIVE ∧
      (P'.PT r).parent = none := by
  have htable := h.exec p argl args
  rw [if_pos hr, ← hP] at htable
  refine ⟨htable,?_,?_,?_⟩
  · intro q hq
    rw [hP]
    simp [copyArgs, inheritParent, h.acquire_cons, hr, Procs.modPCB, hq]
  · rw [hP]
    simp [copyArgs, inheritParent, h.acquire_cons, hr, Procs.modPCB]
  · rw [hP]
    simp [copyArgs, inheritParent, h.acquire_cons, hr, Procs.modPCB]

theorem sysExec_root (h : Table s.procs L (r::fl)) (hr : r.val≤1) (p : PcbRef) (call : Bool)
    (argl : Nat) (args : Option (List UInt8)) :
    (sysExec s p call argl args).1 =
      let s1 := { s with procs := copyArgs (inheritParent (acquirePCB s.procs).1 p r) r argl args
      }.record
        (.exec none r)
      if call then startMainThread s1 r else s1 := by
  rw [sysExec_cons h]
  simp only [if_pos hr]

theorem initializeFiles_eq : ∃ heap, initializeFiles = { zeroFiles with heap := heap } := by
  have hn : ([]++List.finRange MAX_FILES).Nodup := by
    rw [List.nil_append]
    exact List.nodup_finRange _
  obtain ⟨h,he,-⟩ := releaseFCBs_eq (F := zeroFiles) (List.finRange MAX_FILES) FreeRing.initial hn
  exact ⟨h,by rw [initializeFiles, he]⟩

theorem initializeFiles_FIDT (p : PcbRef) (i : Fid) : initializeFiles.FIDT p i = none := by
  obtain ⟨h,he⟩ := initializeFiles_eq
  rw [he, zeroFiles]

theorem initializeFiles_log : initializeFiles.log = [] := by
  obtain ⟨h,he⟩ := initializeFiles_eq
  rw [he, zeroFiles]

def booted (ports : Nat) (P : Procs) (F : Files) : State where
  procs := P
  files := F
  thread := Function.update (fun _ => none) initPid (some .user)
  stopped := Function.update (fun _ => false) initPid false
  childExit _ := []
  rxReady _ := []
  exited := 0
  activeThreads := 0+1
  serialPorts := ports
  log := [.exec none 0,.exec none initPid]

theorem boot_fields (ports : Nat) (P1 P2 : Procs) :
    startMainThread ({ { start ports with procs := P1 }.record (.exec none 0) with
      procs := P2 }.record (.exec none initPid)) initPid =
      booted ports P2 initializeFiles := by
  simp only [booted, startMainThread, State.record, State.setThread, start, List.nil_append,
    List.cons_append]

/-- The state after boot: processes 0 and 1 are there and 1 has a thread. -/
theorem boot_eq (ports argl : Nat) (args : Option (List UInt8)) :
    ∃ P fl, boot ports argl args = booted ports P initializeFiles ∧
      Table P (fun _ => []) fl ∧
      ∀ p : PcbRef, (p.val≤1 ∧ (P.PT p).pstate = .ALIVE ∧ (P.PT p).parent = none) ∨
        1<p.val ∧ (P.PT p).pstate = .FREE := by
  obtain ⟨fl,hfl⟩ := finRange_eq
  have hfin : (0::initPid::fl).Nodup := by
    rw [← hfl]
    exact List.nodup_finRange _
  have hall : ∀ p, p∈0::initPid::fl := by
    intro p
    rw [← hfl]
    exact List.mem_finRange p
  have hP0 : initializeProcesses = (0::initPid::fl).foldr pushFree initializePCB := by
    rw [initializeProcesses, hfl]
  have ht0 : Table (start ports).procs (fun _ => []) (0::initPid::fl) := by
    rw [start, hP0]
    exact initial_table hfin hall
  have hfree0 : ∀ p, ((start ports).procs.PT p).pstate = .FREE := by
    rw [start, hP0]
    exact fun p => ((pushFree_spec _ hfin).2.2.2 p).1
  have h0 : (0 : PcbRef).val≤1 := by simp
  have h1 : initPid.val≤1 := by rw [initPid_val]
  have h01 : initPid≠0 := fun he => by
    have := congrArg Fin.val he
    rw [initPid_val] at this
    simp at this
  -- The scheduler process, then init.
  have hs1 := sysExec_root ht0 h0 0 false 0 none
  set s1 := (sysExec (start ports) 0 false 0 none).1 with hs1def
  simp only [Bool.false_eq_true, if_false] at hs1
  obtain ⟨ht1,hother1,ha1,hp1⟩ := exec_root_PT ht0 h0 0 0 none rfl
  have hprocs1 : s1.procs = copyArgs (inheritParent (acquirePCB (start ports).procs).1 0 0) 0 0
    none := by
    rw [hs1]
    rfl
  rw [← hprocs1] at ht1 hother1 ha1 hp1
  have hs2 := sysExec_root ht1 h1 0 true argl args
  simp only [if_true] at hs2
  obtain ⟨ht2,hother2,ha2,hp2⟩ := exec_root_PT ht1 h1 0 argl args rfl
  set P2 := copyArgs (inheritParent (acquirePCB s1.procs).1 0 initPid) initPid argl args with hP2
  refine ⟨P2,fl,?_,ht2,?_⟩
  · rw [boot, ← hs1def, hs2, hs1]
    exact boot_fields ports _ P2
  · intro p
    by_cases hpi : p = initPid
    · subst hpi
      exact Or.inl ⟨h1,ha2,hp2⟩
    · rw [hother2 p hpi]
      by_cases hp0 : p = 0
      · subst hp0
        exact Or.inl ⟨h0,ha1,hp1⟩
      · rw [hother1 p hp0]
        refine Or.inr ⟨?_,hfree0 p⟩
        have h0 : p.val≠0 := fun hc => hp0 (Fin.ext hc)
        have h1 : p.val≠1 := fun hc => hpi (Fin.ext hc)
        omega

theorem booted_thread {t : Thread}
    (ht : Function.update (fun _ => none) initPid (some Thread.user) p = some t) :
    p = initPid ∧ t = .user := by
  by_cases hp : p = initPid
  · simp only [hp, Function.update_self, Option.some.injEq] at ht
    exact ⟨hp,ht.symm⟩
  · simp [hp] at ht

theorem booted_inflight :
    inflight (Function.update (fun _ => none) initPid (some .user)) = fun _ => 0 := by
  funext f
  refine tally_eq_zero.mpr fun p hp => ?_
  obtain ⟨t,ht,hr⟩ := Option.bind_eq_some_iff.mp hp
  rw [(booted_thread ht).2] at hr
  cases hr

theorem booted_inv {P : Procs} {F : Files} (ports : Nat) (htable : Table P (fun _ => []) fl)
    (hPT : ∀ p : PcbRef, (p.val≤1 ∧ (P.PT p).pstate = .ALIVE ∧ (P.PT p).parent = none) ∨
      1<p.val ∧ (P.PT p).pstate = .FREE) (hfids : ∀ p i, F.FIDT p i = none)
    (hok : FilesOk F fun _ => 0) : Inv (booted ports P F) (fun _ => []) fl := by
  have h01 : initPid≠0 := fun he => by
    have := congrArg Fin.val he
    rw [initPid_val] at this
    simp at this
  have halive : (P.PT initPid).pstate = .ALIVE := by
    rcases hPT initPid with h | h
    · exact h.2.1
    · rw [initPid_val] at h
      omega
  have hlog : ledger [.exec none 0,.exec none initPid] =
      ((ledger []).record (.exec none 0)).record (.exec none initPid) := rfl
  have hfresh : ((ledger []).record (.exec none 0)).live initPid = none := by
    simp [Ledger.record, ledger, h01]
  have hlive : ∀ p i, (ledger [.exec none 0,.exec none initPid]).live p = some i →
      p.val≤1 ∧ i.parent = none ∧ i.exitval = none := by
    intro p i hi
    rw [hlog] at hi
    by_cases hp : p = initPid
    · simp only [Ledger.record, hp, Function.update_self, Option.some.injEq] at hi
      exact ⟨by rw [hp, initPid_val],by rw [← hi],by rw [← hi]⟩
    · by_cases hp0 : p = 0
      · simp only [Ledger.record, hp0, Function.update_of_ne h01.symm, Function.update_self,
          Option.some.injEq] at hi
        exact ⟨by simp [hp0],by rw [← hi],by rw [← hi]⟩
      · simp [Ledger.record, ledger, hp, hp0] at hi
  have hdead : ∀ p, (ledger [.exec none 0,.exec none initPid]).live p = none → 1<p.val := by
    intro p hn
    rw [hlog] at hn
    have hpi : p≠initPid := by
      rintro rfl
      simp [Ledger.record] at hn
    have hp0 : p≠0 := by
      rintro rfl
      simp [Ledger.record, h01.symm] at hn
    have h0 : p.val≠0 := fun hc => hp0 (Fin.ext hc)
    have h1 : p.val≠1 := fun hc => hpi (Fin.ext hc)
    omega
  unfold booted
  refine ⟨⟨?_,?_,?_,?_,?_,?_,?_,?_⟩,htable,⟨?_,?_⟩,?_,?_,?_,?_⟩
  · intro p hp
    obtain ⟨t,ht⟩ := Option.ne_none_iff_exists'.mp hp
    rw [(booted_thread ht).1]
    exact halive
  · simp [h01.symm]
  · simp
  · exact fun hi => absurd halive hi
  · intro p t ht
    rw [(booted_thread ht).2]
    trivial
  · intro p q
    by_cases hp : p = initPid <;> simp [hp]
  · intro i q
    by_cases hq : q = initPid <;> simp [hq]
  · have hu := liveThreads_update (fun _ => none) initPid (some .user)
    have hz : liveThreads (fun _ => none) = 0 := tally_eq_zero.mpr fun _ => by simp
    simp only [hz, if_true, reduceCtorEq, if_false, Nat.add_zero, Nat.zero_add] at hu
    simp only [hu]
    rfl
  · intro p hp
    rcases hPT p with h | h
    · exact ⟨by simp [h.2.1],h.2.2⟩
    · omega
  · intro p hp hs
    rcases hPT p with h | h
    · omega
    · exact absurd h.2 hs
  · intro p _ i
    exact hfids p i
  · dsimp only
    rw [booted_inflight]
    exact hok
  · dsimp only
    rw [hlog]
    exact (Ledger.sound_nil.exec rfl).exec hfresh
  · dsimp only
    refine ⟨fun p => ⟨fun hn => ?_,fun hf => ?_⟩,fun p i hi => ?_,fun p i hi => ?_⟩
    · rcases hPT p with h | h
      · have := hdead p hn
        omega
      · exact h.2
    · by_contra hn
      obtain ⟨i,hi⟩ := Option.ne_none_iff_exists'.mp hn
      rcases hPT p with h | h
      · simp [h.2.1] at hf
      · have := (hlive p i hi).1
        omega
    · obtain ⟨hv,hpar,-⟩ := hlive p i hi
      rcases hPT p with h | h
      · rw [hpar, h.2.2]
      · omega
    · obtain ⟨hv,-,hex⟩ := hlive p i hi
      rcases hPT p with h | h
      · rw [hex, h.2.1]
        simp
      · omega

theorem boot_inv (ports argl : Nat) (args : Option (List UInt8)) :
    ∃ L fl, Inv (boot ports argl args) L fl := by
  obtain ⟨P,fl,hboot,htable,hPT⟩ := boot_eq ports argl args
  rw [hboot]
  exact ⟨_,fl,booted_inv ports htable hPT initializeFiles_FIDT initializeFiles_ok⟩

theorem booted_refs {F : Files} (ports : Nat) (P : Procs) (hfids : ∀ p i, F.FIDT p i = none)
    (f : FcbRef) : refs (booted ports P F).files (inflight (booted ports P F).thread) f = 0 := by
  have hz : slots F f = 0 := by
    refine tally_eq_zero.mpr fun x => ?_
    rw [hfids]
    simp
  change slots F f+inflight (Function.update (fun _ => none) initPid (some .user)) f = 0
  simp only [booted_inflight, hz]

theorem booted_log {F : Files} (ports : Nat) (P : Procs) (hlog : F.log = []) :
    (booted ports P F).files.log = [] := hlog

theorem boot_refs (ports argl : Nat) (args : Option (List UInt8)) :
    (boot ports argl args).files.log = [] ∧ ∀ f,
      refs (boot ports argl args).files (inflight (boot ports argl args).thread) f = 0 := by
  obtain ⟨P,fl,hboot,-,-⟩ := boot_eq ports argl args
  rw [hboot]
  exact ⟨booted_log ports P initializeFiles_log,booted_refs ports P initializeFiles_FIDT⟩

theorem reachable_inv (hr : system.Reachable s) : ∃ L fl, Inv s L fl := by
  refine system.invariant (fun s => ∃ L fl, Inv s L fl) ?_ ?_ hr
  · rintro s ⟨ports,argl,args,-,hs⟩
    rw [hs]
    exact boot_inv ports argl args
  · rintro s a s' ⟨L,fl,h⟩ hs
    simp only [system] at hs
    split at hs
    · exact (step_kept h ‹_› hs).1
    · cases hs

end
end TinyOS.Kernel
