import TinyOS.Kernel.Ledger
import TinyOS.Kernel.Reserve
import TinyOS.Kernel.Table

/-! The invariant of the kernel between sections, and the sections that WaitChild is
made of. -/
namespace TinyOS.Kernel
open RList Tally

def Thread.childWait : Thread → Bool
  | .waitChild _ _ | .waitAny _ | .exitWait _ => true
  | .user | .reading _ _ _ => false

def Thread.reads : Thread → Option FcbRef
  | .reading fcb _ _ => some fcb
  | _ => none

noncomputable def inflight (thread : PcbRef → Option Thread) : FcbRef → Nat :=
  tally fun p => (thread p).bind Thread.reads

noncomputable def liveThreads (thread : PcbRef → Option Thread) : Nat :=
  tally (fun p => (thread p).map fun _ => ()) ()

def HasChild (PT : PcbRef → PCB) (p : PcbRef) : Prop :=
  ∃ c, (PT c).pstate≠.FREE ∧ (PT c).parent = some p

def NoExited (PT : PcbRef → PCB) (p : PcbRef) : Prop :=
  ∀ c, (PT c).pstate = .ZOMBIE → (PT c).parent≠some p

/-- A thread waits for a child it has, and sleeps only while none has exited. -/
def Waiting (PT : PcbRef → PCB) (stopped : Bool) (p : PcbRef) : Thread → Prop
  | .user | .reading _ _ _ => True
  | .waitChild c _ => (PT c).pstate≠.FREE ∧ (PT c).parent = some p ∧
      (stopped = true → (PT c).pstate = .ALIVE)
  | .waitAny _ => HasChild PT p ∧ (stopped = true → NoExited PT p)
  | .exitWait _ => p = initPid ∧ HasChild PT p ∧ (stopped = true → NoExited PT p)

structure Threads (s : State) : Prop where
  alive : ∀ p, s.thread p≠none → (s.procs.PT p).pstate = .ALIVE
  zero : s.thread 0 = none
  init : (s.procs.PT initPid).pstate = .ALIVE → s.thread initPid≠none
  last : (s.procs.PT initPid).pstate≠.ALIVE → ∀ p : PcbRef, 1<p.val → (s.procs.PT p).pstate = .FREE
  waiting : ∀ p t, s.thread p = some t → Waiting s.procs.PT (s.stopped p) p t
  ring : ∀ p q, q∈s.childExit p ↔
    q = p ∧ s.stopped p = true ∧ ∃ t, s.thread p = some t ∧ t.childWait = true
  rx : ∀ i q, q∈s.rxReady i ↔
    s.stopped q = true ∧ ∃ fcb size, s.thread q = some (.reading fcb i size)
  active : s.activeThreads = liveThreads s.thread+s.exited

/-- What holds whenever the kernel lock is free. -/
structure Inv (s : State) (L : Kin → List PcbRef) (fl : List PcbRef) : Prop extends Threads s where
  table : Table s.procs L fl
  forest : Forest s.procs.PT
  fids : ∀ p, (s.procs.PT p).pstate≠.ALIVE → ∀ i, s.files.FIDT p i = none
  files : FilesOk s.files (inflight s.thread)
  sound : (ledger s.log).Sound
  agree : (ledger s.log).Matches s.procs.PT

theorem inflight_le (thread : PcbRef → Option Thread) (f : FcbRef) :
    inflight thread f≤MAX_PROC := by
  have := tally_le_card (fun p => (thread p).bind Thread.reads) f
  rwa [Fintype.card_fin] at this

theorem inflight_update {thread : PcbRef → Option Thread} {p : PcbRef} {t : Option Thread}
    (h : (thread p).bind Thread.reads = t.bind Thread.reads) :
    inflight (Function.update thread p t) = inflight thread := by
  have he : (fun q => (Function.update thread p t q).bind Thread.reads) =
      fun q => (thread q).bind Thread.reads := by
    funext q
    by_cases hq : q = p
    · rw [hq, Function.update_self, h]
    · rw [Function.update_of_ne hq]
  rw [inflight, he, inflight]

theorem inflight_reading {thread : PcbRef → Option Thread} {p : PcbRef} {t : Thread} {f : FcbRef}
    (h : thread p = some .user) (ht : t.reads = some f) :
    inflight (Function.update thread p (some t)) =
      Function.update (inflight thread) f (inflight thread f+1) := by
  have he : (fun q => (Function.update thread p (some t) q).bind Thread.reads) =
      Function.update (fun q => (thread q).bind Thread.reads) p (some f) := by
    funext q
    by_cases hq : q = p
    · rw [hq, Function.update_self, Function.update_self, Option.bind_some, ht]
    · rw [Function.update_of_ne hq, Function.update_of_ne hq]
  funext g
  have hu := tally_update (fun q => (thread q).bind Thread.reads) p (some f) g
  have hz : (thread p).bind Thread.reads = none := by rw [h]; rfl
  rw [← he] at hu
  simp only [hz, reduceCtorEq, if_false, Nat.add_zero, Option.some.injEq] at hu
  by_cases hg : g = f
  · subst hg
    rw [Function.update_self, inflight, hu, if_pos rfl, inflight]
  · rw [Function.update_of_ne hg, inflight, hu, if_neg (Ne.symm hg), Nat.add_zero, inflight]

theorem liveThreads_update (thread : PcbRef → Option Thread) (p : PcbRef) (t : Option Thread) :
    liveThreads (Function.update thread p t)+(if thread p = none then 0 else 1) =
      liveThreads thread+(if t = none then 0 else 1) := by
  have he : (fun q => (Function.update thread p t q).map fun _ => ()) =
      Function.update (fun q => (thread q).map fun _ => ()) p (t.map fun _ => ()) := by
    funext q
    by_cases hq : q = p
    · rw [hq, Function.update_self, Function.update_self]
    · rw [Function.update_of_ne hq, Function.update_of_ne hq]
  have hu := tally_update (fun q => (thread q).map fun _ => ()) p (t.map fun _ => ()) ()
  rw [← he] at hu
  cases hp : thread p <;> cases t <;> simpa [liveThreads, hp] using hu

def reap (s : State) (p c : PcbRef) (status : Bool) : State :=
  { s with procs := (cleanupZombie s.procs c status).1 }.record
    (.wait p c.val status (cleanupZombie s.procs c status).2)

section
variable {s : State} {L : Kin → List PcbRef} {fl : List PcbRef} {p c : PcbRef}

theorem cleanupZombie_PT (P : Procs) (c : PcbRef) (status : Bool) :
    (∀ q, q≠c → (cleanupZombie P c status).1.PT q = P.PT q) ∧
      ((cleanupZombie P c status).1.PT c).pstate = .FREE := by
  refine ⟨fun q hq => ?_,?_⟩
  · simp [cleanupZombie, releasePCB, Procs.modPCB, hq]
  · simp [cleanupZombie, releasePCB, Procs.modPCB]

theorem Inv.init_alive (h : Inv s L fl) (hp : s.thread p≠none) :
    (s.procs.PT initPid).pstate = .ALIVE := by
  by_contra hi
  have ha := h.alive p hp
  have hp0 : p≠0 := fun he => hp (he ▸ h.zero)
  by_cases hp1 : p = initPid
  · exact hi (hp1 ▸ ha)
  · have hv : 1<p.val := by
      have h0 : p.val≠0 := fun he => hp0 (Fin.ext he)
      have h1 : p.val≠1 := fun he => hp1 (Fin.ext he)
      omega
    simp [h.last hi p hv] at ha

theorem Waiting.cleanup {PT PT' : PcbRef → PCB} {q : PcbRef} {b : Bool} {t : Thread}
    (hw : Waiting PT b q t) (hq : q≠p) (hc : (PT c).parent = some p)
    (hother : ∀ d, d≠c → PT' d = PT d) (hfree : (PT' c).pstate = .FREE) : Waiting PT' b q t := by
  have hne : ∀ d, (PT d).parent = some q → d≠c := by
    rintro d hd rfl
    rw [hc] at hd
    exact hq (Option.some.inj hd).symm
  have hchild : HasChild PT q → HasChild PT' q := by
    rintro ⟨d,hd,hpar⟩
    exact ⟨d,by rw [hother d (hne d hpar)]; exact ⟨hd,hpar⟩⟩
  have hexited : NoExited PT q → NoExited PT' q := by
    intro hn d hz
    by_cases hdc : d = c
    · rw [hdc, hfree] at hz
      cases hz
    · rw [hother d hdc] at hz ⊢
      exact hn d hz
  cases t with
  | user => trivial
  | reading => trivial
  | waitChild d st =>
    have hd : PT' d = PT d := hother d (hne d hw.2.1)
    simpa only [Waiting, hd] using hw
  | waitAny st => exact ⟨hchild hw.1,fun hb => hexited (hw.2 hb)⟩
  | exitWait v => exact ⟨hw.1,hchild hw.2.1,fun hb => hexited (hw.2.2 hb)⟩

theorem reap_inv (h : Inv s L fl) (hp : s.thread p = some .user)
    (hz : (s.procs.PT c).pstate = .ZOMBIE) (hc : (s.procs.PT c).parent = some p) (status : Bool) :
    ∃ L', Inv (reap s p c status) L' (c::fl) ∧
      (L' (.children p)).length<(L (.children p)).length := by
  obtain ⟨hother,hfree⟩ := cleanupZombie_PT s.procs c status
  set PT' := (cleanupZombie s.procs c status).1.PT with hPT'
  obtain ⟨i,hi⟩ : ∃ i, (ledger s.log).live c = some i :=
    Option.ne_none_iff_exists'.mp fun hn => by simp [(h.agree.free c).mp hn] at hz
  have hipar := (h.agree.parent c i hi).trans hc
  have hival : i.exitval = some (s.procs.PT c).exitval := by
    rw [h.agree.exitval c i hi, if_pos hz]
  have hstored : (cleanupZombie s.procs c status).2 =
      if status then some (s.procs.PT c).exitval else none := rfl
  have hlog : ledger (reap s p c status).log = { ledger s.log with
      live := Function.update (ledger s.log).live c none
      reports := (ledger s.log).reports++[⟨i.id,c,p,i.parent,status,
        if status then some (s.procs.PT c).exitval else none⟩] } := by
    rw [show (reap s p c status).log = s.log++[.wait p c.val status
      (if status then some (s.procs.PT c).exitval else none)] from rfl, ledger_append,
      Ledger.record_wait hi]
  have hcinit : c≠initPid := fun he => by
    have := (h.forest.root initPid (by rw [initPid_val])).2
    rw [← he, hc] at this
    cases this
  have hm := (h.table.children p c).mpr ⟨by simp [hz],hc⟩
  refine ⟨_,⟨⟨?_,h.zero,?_,?_,?_,h.ring,h.rx,h.active⟩,h.table.cleanup hz hc status,
    h.forest.cleanup hz (by simp [hc]) hother hfree,?_,h.files,?_,?_⟩,?_⟩
  · intro q hq
    have ha := h.alive q hq
    change (PT' q).pstate = _
    rw [hother q (by rintro rfl; simp [hz] at ha)]
    exact ha
  · intro hi'
    change (PT' initPid).pstate = _ at hi'
    rw [hother _ hcinit.symm] at hi'
    exact h.init hi'
  · intro hi' q hq
    change (PT' initPid).pstate≠_ at hi'
    rw [hother _ hcinit.symm] at hi'
    exact absurd (h.init_alive (p := p) (by simp [hp])) hi'
  · intro q t ht
    by_cases hq : q = p
    · subst hq
      have : t = .user := Option.some.inj (ht.symm.trans hp)
      subst this
      trivial
    · exact (h.waiting q t ht).cleanup hq hc hother hfree
  · intro q hq
    change (PT' q).pstate≠_ at hq
    by_cases hqc : q = c
    · subst hqc
      exact h.fids q (by simp [hz])
    · rw [hother q hqc] at hq
      exact h.fids q hq
  · have := h.sound.wait hi hipar hival status
    rwa [Ledger.record_wait hi, ← hlog] at this
  · rw [hlog]
    refine ⟨?_,?_,?_⟩
    · intro q
      change _ ↔ (PT' q).pstate = _
      by_cases hqc : q = c
      · subst hqc
        simp [hfree]
      · rw [hother q hqc, ← h.agree.free q]
        simp [hqc]
    · intro q j hj
      change _ = (PT' q).parent
      by_cases hqc : q = c
      · simp [hqc] at hj
      · rw [hother q hqc]
        exact h.agree.parent q j (by simpa [hqc] using hj)
    · intro q j hj
      change _ = if (PT' q).pstate = _ then some (PT' q).exitval else none
      by_cases hqc : q = c
      · simp [hqc] at hj
      · rw [hother q hqc]
        exact h.agree.exitval q j (by simpa [hqc] using hj)
  · have := List.length_erase_of_mem hm
    have := List.length_pos_of_mem hm
    simp only [ne_eq, reduceCtorEq, not_false_eq_true, Function.update_of_ne, Function.update_self]
    omega

theorem block_inv (h : Inv s L fl) (hp : s.thread p = some .user) {t : Thread}
    (hw : Waiting s.procs.PT true p t) (ht : t.childWait = true) :
    Inv (waitChildExit s p t) L fl := by
  have hreads : t.reads = none := by
    cases t <;> first | rfl | simp [Thread.childWait] at ht
  have hinf : inflight (Function.update s.thread p (some t)) = inflight s.thread :=
    inflight_update (by rw [hp, Option.bind_some, Option.bind_some, hreads]; rfl)
  have hp0 : p≠0 := fun he => by
    rw [he, h.zero] at hp
    cases hp
  refine ⟨⟨?_,?_,?_,h.last,?_,?_,?_,?_⟩,h.table,h.forest,h.fids,?_,h.sound,h.agree⟩
  · intro q hq
    by_cases hqp : q = p
    · exact hqp ▸ h.alive p (by simp [hp])
    · exact h.alive q (by simpa [waitChildExit, State.setThread, hqp] using hq)
  · simpa [waitChildExit, State.setThread, hp0.symm] using h.zero
  · intro hi
    by_cases hip : initPid = p
    · simp [waitChildExit, State.setThread, hip]
    · simpa [waitChildExit, State.setThread, hip] using h.init hi
  · intro q u hu
    by_cases hqp : q = p
    · subst hqp
      obtain rfl : t = u := by simpa [waitChildExit, State.setThread] using hu
      simpa [waitChildExit, State.setThread] using hw
    · have := h.waiting q u (by simpa [waitChildExit, State.setThread, hqp] using hu)
      simpa [waitChildExit, State.setThread, hqp] using this
  · intro q r
    by_cases hqp : q = p
    · subst hqp
      have := h.ring q r
      simp [hp, Thread.childWait] at this
      simp [waitChildExit, State.setThread, ht, this]
    · have := h.ring q r
      simpa [waitChildExit, State.setThread, hqp] using this
  · intro i q
    by_cases hqp : q = p
    · subst hqp
      have := h.rx i q
      simp [hp] at this
      cases t <;> simp [waitChildExit, State.setThread, this, Thread.childWait] at ht ⊢
    · have := h.rx i q
      simpa [waitChildExit, State.setThread, hqp] using this
  · have hu := liveThreads_update s.thread p (some t)
    simp only [hp, reduceCtorEq, if_false] at hu
    have := h.active
    change s.activeThreads = liveThreads (Function.update s.thread p (some t))+s.exited
    omega
  · change FilesOk s.files (inflight (Function.update s.thread p (some t)))
    rw [hinf]
    exact h.files

theorem noproc_inv (h : Inv s L fl) (p : PcbRef) (status : Bool) (stored : Option Int) :
    Inv (s.record (.wait p NOPROC status stored)) L fl := by
  have hlog : ledger (s.record (.wait p NOPROC status stored)).log = ledger s.log := by
    rw [State.record, ledger_append, Ledger.record_noproc]
  refine ⟨⟨h.alive,h.zero,h.init,h.last,h.waiting,h.ring,h.rx,h.active⟩,h.table,h.forest,h.fids,
    h.files,?_,?_⟩
  · rw [hlog]
    exact h.sound
  · rw [hlog]
    exact h.agree

structure Quiet (s s' : State) : Prop where
  files : s'.files = s.files
  inflight : inflight s'.thread = inflight s.thread

theorem Quiet.refl (s : State) : Quiet s s := ⟨rfl,rfl⟩

theorem Quiet.trans {s s' s'' : State} (h : Quiet s s') (h' : Quiet s' s'') : Quiet s s'' :=
  ⟨h'.files.trans h.files,h'.inflight.trans h.inflight⟩

theorem reap_quiet (s : State) (p c : PcbRef) (status : Bool) : Quiet s (reap s p c status) :=
  ⟨rfl,rfl⟩

theorem block_quiet (hp : s.thread p = some .user) {t : Thread} (ht : t.childWait = true) :
    Quiet s (waitChildExit s p t) := by
  refine ⟨rfl,inflight_update ?_⟩
  rw [hp]
  cases t <;> first | rfl | simp [Thread.childWait] at ht

theorem awaitChild_inv (h : Inv s L fl) (hp : s.thread p = some .user)
    (hc : (s.procs.PT c).pstate≠.FREE) (hpar : (s.procs.PT c).parent = some p) (status : Bool) :
    ∃ s' L' fl', returnWait p status (awaitChild s p c status) = s' ∧ Inv s' L' fl' ∧
    Quiet s s' := by
  by_cases ha : (s.procs.PT c).pstate = .ALIVE
  · refine ⟨_,L,fl,rfl,?_,?_⟩
    · rw [awaitChild, if_pos ha]
      exact block_inv h hp ⟨hc,hpar,fun _ => ha⟩ rfl
    · rw [awaitChild, if_pos ha]
      exact block_quiet hp rfl
  · have hz : (s.procs.PT c).pstate = .ZOMBIE := by
      cases hs : (s.procs.PT c).pstate with
      | FREE => exact absurd hs hc
      | ALIVE => exact absurd hs ha
      | ZOMBIE => rfl
    obtain ⟨L',hinv,-⟩ := reap_inv h hp hz hpar status
    refine ⟨reap s p c status,L',c::fl,?_,hinv,reap_quiet s p c status⟩
    rw [awaitChild, if_neg ha]
    rfl

/-- What the loop of wait_for_any_child does: it waits while no child has exited, else
it reaps the first one. -/
theorem awaitAny_eq (h : Inv s L fl) (p : PcbRef) (status : Bool) (t : Thread) :
    (NoExited s.procs.PT p ∧ awaitAny s p status t = some (waitChildExit s p t,none)) ∨
    ∃ c, (s.procs.PT c).pstate = .ZOMBIE ∧ (s.procs.PT c).parent = some p ∧
      awaitAny s p status t = some ({ s with procs := (cleanupZombie s.procs c status).1 },
        some (getPid (some c),(cleanupZombie s.procs c status).2)) := by
  have he := h.table.family.isEmpty_exited p
  cases hl : L (.exited p) with
  | nil =>
    refine Or.inl ⟨fun c hz hpar => ?_,by simp [awaitAny, he, hl]⟩
    have := (h.table.exited p c).mpr ⟨hz,hpar⟩
    simp [hl] at this
  | cons c l =>
    obtain ⟨hz,hpar⟩ := (h.table.exited p c).mp (by simp [hl])
    refine Or.inr ⟨c,hz,hpar,?_⟩
    have hkey : s.procs.heap.key (s.procs.heap.next (.exitedList p)) = some c :=
      h.table.family.next_list hl
    rw [awaitAny, he, hl]
    simp only [reduceCtorEq, decide_false, Bool.false_eq_true, if_false, hkey, hz, if_true]

theorem Inv.hasChild_iff (h : Inv s L fl) (p : PcbRef) :
    HasChild s.procs.PT p ↔ L (.children p)≠[] := by
  constructor
  · rintro ⟨c,hc⟩ hn
    have := (h.table.children p c).mpr hc
    simp [hn] at this
  · intro hn
    obtain ⟨c,hc⟩ := List.exists_mem_of_ne_nil _ hn
    exact ⟨c,(h.table.children p c).mp hc⟩

theorem waitForAnyChild_cases (h : Inv s L fl) (p : PcbRef) (status : Bool) (t : Thread) :
    (¬HasChild s.procs.PT p ∧ waitForAnyChild s p status t = some (s,some (NOPROC,none))) ∨
    (HasChild s.procs.PT p ∧ NoExited s.procs.PT p ∧
      waitForAnyChild s p status t = some (waitChildExit s p t,none)) ∨
    ∃ c, (s.procs.PT c).pstate = .ZOMBIE ∧ (s.procs.PT c).parent = some p ∧
      waitForAnyChild s p status t = some ({ s with procs := (cleanupZombie s.procs c status).1 },
        some (getPid (some c),(cleanupZombie s.procs c status).2)) := by
  have he := h.table.family.isEmpty_children p
  by_cases hl : L (.children p) = []
  · refine Or.inl ⟨fun hc => (h.hasChild_iff p).mp hc hl,?_⟩
    simp [waitForAnyChild, he, hl]
  · have hw : waitForAnyChild s p status t = awaitAny s p status t := by
      simp [waitForAnyChild, he, hl]
    rw [hw]
    rcases awaitAny_eq h p status t with ⟨hn,ha⟩ | hz
    · exact Or.inr (Or.inl ⟨(h.hasChild_iff p).mpr hl,hn,ha⟩)
    · exact Or.inr (Or.inr hz)

theorem getPid_ne_noproc (c : PcbRef) : getPid (some c)≠NOPROC := by
  simp only [getPid, NOPROC]
  omega

theorem awaitAny_inv (h : Inv s L fl) (hp : s.thread p = some .user) (hc : HasChild s.procs.PT p)
    (status : Bool) : ∃ s' L' fl', (awaitAny s p status (.waitAny status)).map
    (returnWait p status) =
      some s' ∧ Inv s' L' fl' ∧ Quiet s s' := by
  rcases awaitAny_eq h p status (.waitAny status) with ⟨hn,ha⟩ | ⟨c,hz,hpar,ha⟩
  · exact ⟨waitChildExit s p (.waitAny status),L,
      fl,by rw [ha]; rfl,block_inv h hp ⟨hc,fun _ => hn⟩ rfl,block_quiet hp rfl⟩
  · obtain ⟨L',hinv,-⟩ := reap_inv h hp hz hpar status
    exact ⟨reap s p c status,L',c::fl,by rw [ha]; rfl,hinv,reap_quiet s p c status⟩

theorem sysWaitChild_inv (h : Inv s L fl) (hp : s.thread p = some .user) (cpid : Int)
    (status : Bool) : ∃ s' L' fl', (sysWaitChild s p cpid status).map (returnWait p status) =
      some s' ∧ Inv s' L' fl' ∧ Quiet s s' := by
  have hno : Inv (s.record (.wait p NOPROC status none)) L fl := noproc_inv h p status none
  by_cases hcp : cpid = NOPROC
  · subst hcp
    have he : sysWaitChild s p NOPROC status = waitForAnyChild s p status (.waitAny status) := by
      simp [sysWaitChild]
    rw [he]
    rcases waitForAnyChild_cases h p status (.waitAny status) with ⟨-,ha⟩ | ⟨hc,hn,ha⟩ |
      ⟨c,hz,hpar,ha⟩
    · exact ⟨_,L,fl,by rw [ha]; rfl,hno,rfl,rfl⟩
    · exact ⟨waitChildExit s p (.waitAny status),L,
        fl,by rw [ha]; rfl,block_inv h hp ⟨hc,fun _ => hn⟩ rfl,block_quiet hp rfl⟩
    · obtain ⟨L',hinv,-⟩ := reap_inv h hp hz hpar status
      exact ⟨reap s p c status,L',c::fl,by rw [ha]; rfl,hinv,reap_quiet s p c status⟩
  · have he : sysWaitChild s p cpid status = some (waitForSpecificChild s p cpid status) := by
      simp [sysWaitChild, hcp]
    rw [he, Option.map_some]
    unfold waitForSpecificChild
    split
    · rename_i hr
      by_cases hfree : (s.procs.PT ⟨cpid.toNat,by omega⟩).pstate = .FREE
      · simp only [getPcb, hfree, if_true]
        exact ⟨_,L,fl,rfl,hno,rfl,rfl⟩
      · simp only [getPcb, hfree, if_false]
        split
        · exact ⟨_,L,fl,rfl,hno,rfl,rfl⟩
        · rename_i hpar
          obtain ⟨s',L',fl',hs',hinv,hq⟩ := awaitChild_inv h hp hfree (not_not.mp hpar) status
          exact ⟨s',L',fl',by rw [hs'],hinv,hq⟩
    · exact ⟨_,L,fl,rfl,hno,rfl,rfl⟩

/-- The WaitChild loop of Exit ends: it waits for a child or is left with none. -/
theorem exitLoop_inv (v : Int) {fuel : Nat} (h : Inv s L fl) (hp : s.thread initPid = some .user)
    (hfuel : (L (.children initPid)).length<fuel) :
    ∃ s' b L' fl', exitLoop initPid v fuel s = some (s',b) ∧ Inv s' L' fl' ∧ Quiet s s' ∧
      (b = true → L' (.children initPid) = [] ∧ s'.thread initPid = some .user) := by
  induction fuel generalizing s L fl with
  | zero => omega
  | succ fuel ih =>
    rcases waitForAnyChild_cases h initPid false (.exitWait v) with
      ⟨hc,ha⟩ | ⟨hc,hn,ha⟩ | ⟨c,hz,hpar,ha⟩
    · refine ⟨s.record (.wait initPid NOPROC false none),true,L,fl,by simp [exitLoop, ha],
        noproc_inv h initPid false none,⟨rfl,rfl⟩,fun _ => ⟨?_,hp⟩⟩
      by_contra hne
      exact hc ((h.hasChild_iff initPid).mpr hne)
    · exact ⟨waitChildExit s initPid (.exitWait v),false,L,fl,by simp [exitLoop, ha],
        block_inv h hp ⟨rfl,hc,fun _ => hn⟩ rfl,block_quiet hp rfl,by simp⟩
    · obtain ⟨L',hinv,hlt⟩ := reap_inv h hp hz hpar false
      obtain ⟨s',b,L'',fl'',hs',hinv',hq,hb⟩ := ih hinv hp (by omega)
      refine ⟨s',b,L'',fl'',?_,hinv',(reap_quiet s initPid c false).trans hq,hb⟩
      rw [exitLoop, ha, Option.bind_some]
      simp only [ne_eq, getPid_ne_noproc, not_false_eq_true, if_true]
      exact hs'

end
end TinyOS.Kernel
