import TinyOS.Kernel.Exit

/-! Every section keeps the kernel invariant. -/
namespace TinyOS.Kernel
open RList Tally

section
variable {s : State} {L : Kin → List PcbRef} {fl : List PcbRef} {p r : PcbRef}

theorem sysExec_cons (h : Table s.procs L (r::fl)) (p : PcbRef) (call : Bool) (argl : Nat)
    (args : Option (List UInt8)) :
    (sysExec s p call argl args).1 =
      let s1 := { s with
        procs := copyArgs (inheritParent (acquirePCB s.procs).1 p r) r argl args
        files := if r.val≤1 then s.files else inheritFIDT s.files p r }.record
          (.exec (if r.val≤1 then none else some p) r)
      if call then startMainThread s1 r else s1 := by
  have hacq : acquirePCB s.procs = ((acquirePCB s.procs).1,some r) := by
    rw [h.acquire_cons]
  rw [sysExec, hacq]

theorem exec_PT (h : Table s.procs L (r::fl)) (hr : 1<r.val) (p : PcbRef) (argl : Nat)
    (args : Option (List UInt8)) {P : Procs}
    (hP : P = copyArgs (inheritParent (acquirePCB s.procs).1 p r) r argl args) :
    (∀ q, q≠r → P.PT q = s.procs.PT q) ∧ (P.PT r).pstate = .ALIVE ∧ (P.PT r).parent = some p := by
  have hle : ¬r.val≤1 := by omega
  subst hP
  refine ⟨fun q hq => ?_,?_,?_⟩
  · simp [copyArgs, inheritParent, h.acquire_cons, hle, Procs.modPCB, hq]
  · simp [copyArgs, inheritParent, h.acquire_cons, hle, Procs.modPCB]
  · simp [copyArgs, inheritParent, h.acquire_cons, hle, Procs.modPCB]

theorem Ledger.Matches.exec {l : Ledger} {PT PT' : PcbRef → PCB} {parent : Option PcbRef}
    (h : l.Matches PT) (hother : ∀ q, q≠r → PT' q = PT q) (ha : (PT' r).pstate = .ALIVE)
    (hpar : (PT' r).parent = parent) : (l.record (.exec parent r)).Matches PT' := by
  refine ⟨?_,?_,?_⟩
  · intro q
    by_cases hq : q = r
    · simp [Ledger.record, hq, ha]
    · rw [hother q hq, ← h.free q]
      simp [Ledger.record, hq]
  · intro q j hj
    by_cases hq : q = r
    · subst hq
      simp only [Ledger.record, Function.update_self, Option.some.injEq] at hj
      rw [← hj, hpar]
    · rw [hother q hq]
      exact h.parent q j (by simpa [Ledger.record, hq] using hj)
  · intro q j hj
    by_cases hq : q = r
    · subst hq
      simp only [Ledger.record, Function.update_self, Option.some.injEq] at hj
      rw [← hj, ha]
      simp
    · rw [hother q hq]
      exact h.exitval q j (by simpa [Ledger.record, hq] using hj)

theorem Waiting.exec {PT PT' : PcbRef → PCB} {q : PcbRef} {b : Bool} {t : Thread}
    (hw : Waiting PT b q t) (hother : ∀ d, d≠r → PT' d = PT d) (hfree : (PT r).pstate = .FREE)
    (ha : (PT' r).pstate = .ALIVE) : Waiting PT' b q t := by
  have hchild : HasChild PT q → HasChild PT' q := by
    rintro ⟨d,hd,hpar⟩
    have hdr : d≠r := fun he => hd (he ▸ hfree)
    exact ⟨d,by rw [hother d hdr]; exact ⟨hd,hpar⟩⟩
  have hexited : NoExited PT q → NoExited PT' q := by
    intro hn d hz
    by_cases hdr : d = r
    · rw [hdr, ha] at hz
      cases hz
    · rw [hother d hdr] at hz ⊢
      exact hn d hz
  cases t with
  | user => trivial
  | reading => trivial
  | waitChild d st =>
    have hd : PT' d = PT d := hother d fun he => hw.1 (he ▸ hfree)
    simpa only [Waiting, hd] using hw
  | waitAny st => exact ⟨hchild hw.1,fun hb => hexited (hw.2 hb)⟩
  | exitWait v => exact ⟨hw.1,hchild hw.2.1,fun hb => hexited (hw.2.2 hb)⟩

theorem startMainThread_inv (h : Inv s L fl) (hn : s.thread r = none) (hr : 1<r.val)
    (ha : (s.procs.PT r).pstate = .ALIVE) :
    Inv (startMainThread s r) L fl ∧ Quiet s (startMainThread s r) := by
  have hinf : inflight (Function.update s.thread r (some .user)) = inflight s.thread :=
    inflight_update (by rw [hn]; rfl)
  have hr0 : r≠0 := by
    rintro rfl
    simp at hr
  refine ⟨⟨⟨?_,?_,?_,h.last,?_,?_,?_,?_⟩,h.table,h.forest,h.fids,?_,h.sound,h.agree⟩,rfl,hinf⟩
  · intro q hq
    by_cases hqr : q = r
    · exact hqr ▸ ha
    · exact h.alive q (by simpa [startMainThread, State.setThread, hqr] using hq)
  · simpa [startMainThread, State.setThread, hr0.symm] using h.zero
  · intro hi
    by_cases hir : initPid = r
    · simp [startMainThread, State.setThread, hir]
    · simpa [startMainThread, State.setThread, hir] using h.init hi
  · intro q t ht
    by_cases hqr : q = r
    · subst hqr
      obtain rfl : .user = t := by simpa [startMainThread, State.setThread] using ht
      trivial
    · have := h.waiting q t (by simpa [startMainThread, State.setThread, hqr] using ht)
      simpa [startMainThread, State.setThread, hqr] using this
  · intro q x
    have := h.ring q x
    by_cases hqr : q = r
    · subst hqr
      simp [hn] at this
      simp [startMainThread, State.setThread, this]
    · simpa [startMainThread, State.setThread, hqr] using this
  · intro i q
    have := h.rx i q
    by_cases hqr : q = r
    · subst hqr
      simp [hn] at this
      simp [startMainThread, State.setThread, this]
    · simpa [startMainThread, State.setThread, hqr] using this
  · have hu := liveThreads_update s.thread r (some .user)
    simp only [hn, reduceCtorEq, if_false, if_true] at hu
    have := h.active
    change s.activeThreads+1 = liveThreads (Function.update s.thread r (some .user))+s.exited
    omega
  · change FilesOk s.files (inflight (Function.update s.thread r (some .user)))
    rw [hinf]
    exact h.files

def Kept (s s' : State) : Prop :=
  (∃ L fl, Inv s' L fl) ∧ FilesStep s.files (inflight s.thread) s'.files (inflight s'.thread)

theorem Inv.kept {s' : State} (h : Inv s' L fl) (hq : Quiet s s') : Kept s s' := by
  refine ⟨⟨L,fl,h⟩,?_⟩
  have := h.files
  rw [hq.inflight, hq.files] at this ⊢
  exact .same this

theorem sysExec_kept (h : Inv s L fl) (hp : s.thread p = some .user) (call : Bool) (argl : Nat)
    (args : Option (List UInt8)) : Kept s (sysExec s p call argl args).1 := by
  cases fl with
  | nil =>
    have he : (sysExec s p call argl args).1 = s := by
      simp [sysExec, h.table.acquire_nil]
    rw [he]
    exact h.kept (.refl s)
  | cons r fl =>
    have hfree : (s.procs.PT r).pstate = .FREE := (h.table.free r).mp (by simp)
    have hr : 1<r.val := by
      by_contra hle
      exact (h.forest.root r (by omega)).1 hfree
    have hle : ¬r.val≤1 := by omega
    have ha := h.alive p (by simp [hp])
    have hpr : p≠r := by
      rintro rfl
      simp [hfree] at ha
    have hrth : s.thread r = none := by
      by_contra hne
      simp [h.alive r hne] at hfree
    set P := copyArgs (inheritParent (acquirePCB s.procs).1 p r) r argl args with hP
    obtain ⟨hother,hra,hrpar⟩ := exec_PT h.table hr p argl args hP
    have htable := h.table.exec p argl args
    rw [if_neg hle, ← hP] at htable
    obtain ⟨hstep,hown,hnew⟩ := h.files.inheritFIDT hpr (inflight_le _)
      (h.fids r (by simp [hfree]))
    have hrooted : Rooted s.procs.PT p := by
      by_cases hpi : p = initPid
      · exact hpi ▸ .init
      · refine h.forest.rooted p ?_ (by simp [ha])
        have h0 : p.val≠0 := fun hc => by
          rw [show p = 0 from Fin.ext hc, h.zero] at hp
          cases hp
        have h1 : p.val≠1 := fun hc => hpi (Fin.ext hc)
        omega
    have hri : initPid≠r := by
      rintro rfl
      rw [initPid_val] at hr
      omega
    have hlive : (ledger s.log).live r = none := (h.agree.free r).mpr hfree
    set s1 : State := { s with procs := P, files := inheritFIDT s.files p r }.record
      (.exec (some p) r) with hs1
    have hlog : ledger s1.log = (ledger s.log).record (.exec (some p) r) := ledger_append s.log _
    have hinv : Inv s1 (Function.update L (.children p) (r::L (.children p))) fl := by
      refine ⟨⟨?_,h.zero,?_,?_,?_,h.ring,h.rx,h.active⟩,htable,?_,?_,hstep.ok,?_,?_⟩
      · intro q hq
        change (P.PT q).pstate = _
        rw [hother q (by rintro rfl; exact hq hrth)]
        exact h.alive q hq
      · intro hi
        change (P.PT initPid).pstate = _ at hi
        rw [hother _ hri] at hi
        exact h.init hi
      · intro hi
        change (P.PT initPid).pstate≠_ at hi
        rw [hother _ hri] at hi
        exact absurd (h.init_alive (p := p) (by simp [hp])) hi
      · exact fun q t ht => (h.waiting q t ht).exec hother hfree hra
      · exact h.forest.exec hr hfree hrooted ha hother hrpar
      · intro q hq
        change (P.PT q).pstate≠_ at hq
        have hqr : q≠r := by
          rintro rfl
          exact hq hra
        rw [hother q hqr] at hq
        change ∀ i, (inheritFIDT s.files p r).FIDT q i = none
        rw [hown q hqr]
        exact h.fids q hq
      · rw [hlog]
        exact h.sound.exec hlive
      · rw [hlog]
        exact h.agree.exec hother hra hrpar
    have he : (sysExec s p call argl args).1 = if call then startMainThread s1 r else s1 := by
      rw [sysExec_cons h.table]
      simp only [if_neg hle, ← hP, hs1]
    rw [he]
    cases call with
    | false => exact ⟨⟨_,_,hinv⟩,hstep⟩
    | true =>
      obtain ⟨hinv',hq⟩ := startMainThread_inv hinv hrth hr hra
      refine ⟨⟨_,_,hinv'⟩,?_⟩
      rw [if_pos rfl, hq.files, hq.inflight]
      exact hstep

theorem OwnStep.kept {F : Files} (h : Inv s L fl) (hp : s.thread p = some .user)
    (hF : OwnStep s.files (inflight s.thread) p F) : Kept s { s with files := F } := by
  refine ⟨⟨L,fl,⟨h.alive,h.zero,h.init,h.last,h.waiting,h.ring,h.rx,h.active⟩,h.table,h.forest,?_,
    hF.ok,h.sound,h.agree⟩,hF.toFilesStep⟩
  intro q hq
  have hqp : q≠p := by
    rintro rfl
    exact hq (h.alive q (by simp [hp]))
  change ∀ i, F.FIDT q i = none
  rw [hF.own q hqp]
  exact h.fids q hq

theorem Threads.wake (h : Threads s) (hp : s.thread p≠none) (hs : s.stopped p = false) :
    Threads (s.setThread p (some .user)) := by
  have hp0 : p≠0 := fun he => hp (he ▸ h.zero)
  refine ⟨?_,?_,?_,h.last,?_,?_,?_,?_⟩
  · intro q hq
    by_cases hqp : q = p
    · exact hqp ▸ h.alive p hp
    · exact h.alive q (by simpa [State.setThread, hqp] using hq)
  · simpa [State.setThread, hp0.symm] using h.zero
  · intro hi
    by_cases hip : initPid = p
    · simp [State.setThread, hip]
    · simpa [State.setThread, hip] using h.init hi
  · intro q t ht
    by_cases hqp : q = p
    · subst hqp
      obtain rfl : .user = t := by simpa [State.setThread] using ht
      trivial
    · exact h.waiting q t (by simpa [State.setThread, hqp] using ht)
  · intro q x
    have := h.ring q x
    by_cases hqp : q = p
    · subst hqp
      simp [hs] at this
      simp [State.setThread, this, hs]
    · simpa [State.setThread, hqp] using this
  · intro i q
    have := h.rx i q
    by_cases hqp : q = p
    · subst hqp
      simp [hs] at this
      simp [State.setThread, this, hs]
    · simpa [State.setThread, hqp] using this
  · have hu := liveThreads_update s.thread p (some .user)
    simp only [hp, if_false, reduceCtorEq] at hu
    have := h.active
    change s.activeThreads = liveThreads (Function.update s.thread p (some .user))+s.exited
    omega

theorem Threads.waitRxReady (h : Threads s) (hp : s.thread p = some .user) (fcb : FcbRef)
    (port size : Nat) : Threads (waitRxReady s p fcb port size) := by
  have hp0 : p≠0 := fun he => by
    rw [he, h.zero] at hp
    cases hp
  refine ⟨?_,?_,?_,h.last,?_,?_,?_,?_⟩
  · intro q hq
    by_cases hqp : q = p
    · exact hqp ▸ h.alive p (by simp [hp])
    · exact h.alive q (by simpa [Kernel.waitRxReady, State.setThread, hqp] using hq)
  · simpa [Kernel.waitRxReady, State.setThread, hp0.symm] using h.zero
  · intro hi
    by_cases hip : initPid = p
    · simp [Kernel.waitRxReady, State.setThread, hip]
    · simpa [Kernel.waitRxReady, State.setThread, hip] using h.init hi
  · intro q t ht
    by_cases hqp : q = p
    · subst hqp
      obtain rfl : .reading fcb port size = t := by
        simpa [Kernel.waitRxReady, State.setThread] using ht
      trivial
    · have := h.waiting q t (by simpa [Kernel.waitRxReady, State.setThread, hqp] using ht)
      simpa [Kernel.waitRxReady, State.setThread, hqp] using this
  · intro q x
    have := h.ring q x
    by_cases hqp : q = p
    · subst hqp
      simp [hp, Thread.childWait] at this
      simp [Kernel.waitRxReady, State.setThread, this, Thread.childWait]
    · simpa [Kernel.waitRxReady, State.setThread, hqp] using this
  · intro i q
    have := h.rx i q
    by_cases hqp : q = p
    · subst hqp
      simp [hp] at this
      by_cases hi : i = port
      · simp [Kernel.waitRxReady, State.setThread, hi]
      · simp [Kernel.waitRxReady, State.setThread, hi, Ne.symm hi, this]
    · by_cases hi : i = port
      · subst hi
        simpa [Kernel.waitRxReady, State.setThread, hqp] using this
      · simpa [Kernel.waitRxReady, State.setThread, hqp, hi] using this
  · have hu := liveThreads_update s.thread p (some (.reading fcb port size))
    simp only [hp, reduceCtorEq, if_false] at hu
    have := h.active
    change s.activeThreads =
      liveThreads (Function.update s.thread p (some (.reading fcb port size)))+s.exited
    omega

theorem finishRead_eq {F : Files} {f : FcbRef} {count : Nat} {ret : State × Option Int}
    (hdec : decref s.files f = some (F,0)) (hr : finishRead s f count = some ret) :
    ret.1 = { s with files := F } := by
  simp only [finishRead, hdec, Option.map_some, Option.some.injEq] at hr
  rw [← hr]

theorem devread_cases {f : FcbRef} {sobj : Option Nat} {size inp : Nat} {valid : Nat → Bool}
    {ops : FileOps} {ret : State × Option Int}
    (hr : devread s p f sobj size inp valid ops = some ret) :
    (∃ count, finishRead s f count = some ret) ∨
      ∃ port, ret.1 = waitRxReady s p f port size := by
  cases ops with
  | nulldev => exact Or.inl ⟨_,hr⟩
  | stdio => exact Or.inl ⟨_,hr⟩
  | serial =>
    obtain ⟨port,-,hr⟩ := Option.bind_eq_some_iff.mp hr
    split at hr
    · exact Or.inr ⟨port,by cases hr; rfl⟩
    · exact Or.inl ⟨_,hr⟩

theorem sysRead_kept (h : Inv s L fl) (hp : s.thread p = some .user) {fd : Int} {size inp : Nat}
    {valid : Nat → Bool} {ret : State × Option Int}
    (hr : sysRead s p fd size inp valid = some ret) : Kept s ret.1 := by
  unfold sysRead at hr
  cases hg : getFcb s.files p fd with
  | none =>
    rw [hg] at hr
    cases hr
    exact h.kept (.refl s)
  | some f =>
    obtain ⟨fid,hslot,-⟩ := getFcb_some hg
    have hpos : 0<refs s.files (inflight s.thread) f := refs_pos hslot
    simp only [hg, Option.bind_eq_some_iff] at hr
    obtain ⟨ops,-,hr⟩ := hr
    rcases devread_cases hr with ⟨count,hfin⟩ | ⟨port,hret⟩
    · obtain ⟨F,hdec,hstep,hT⟩ := h.files.hold_drop (inflight_le _) hpos
      rw [finishRead_eq (s := { s with files := incref s.files f }) hdec hfin]
      exact OwnStep.kept h hp ⟨hstep,fun q _ => by rw [hT]⟩
    · have hold := h.files.hold (inflight_le _) hpos
      have hinf := inflight_reading (t := .reading f port size) hp rfl
      have hth : Threads { s with files := incref s.files f } :=
        ⟨h.alive,h.zero,h.init,h.last,h.waiting,h.ring,h.rx,h.active⟩
      rw [hret]
      refine ⟨⟨L,fl,hth.waitRxReady hp f port size,h.table,h.forest,h.fids,?_,h.sound,h.agree⟩,?_⟩
      · change FilesOk (incref s.files f)
          (inflight (Function.update s.thread p (some (.reading f port size))))
        rw [hinf]
        exact hold.ok
      · change FilesStep s.files (inflight s.thread) (incref s.files f)
          (inflight (Function.update s.thread p (some (.reading f port size))))
        rw [hinf]
        exact hold

theorem Inv.wake (h : Inv s L fl) {t : Thread} (ht : s.thread p = some t)
    (hc : t.childWait = true) (hs : s.stopped p = false) :
    Inv (s.setThread p (some .user)) L fl ∧ Quiet s (s.setThread p (some .user)) := by
  have hinf : inflight (Function.update s.thread p (some .user)) = inflight s.thread := by
    refine inflight_update ?_
    rw [ht]
    cases t <;> first | rfl | simp [Thread.childWait] at hc
  refine ⟨⟨h.toThreads.wake (by simp [ht]) hs,h.table,h.forest,h.fids,?_,h.sound,h.agree⟩,rfl,hinf⟩
  change FilesOk s.files (inflight (Function.update s.thread p (some .user)))
  rw [hinf]
  exact h.files

theorem Quiet.kept {s1 s2 : State} (hq : Quiet s s1) (hk : Kept s1 s2) : Kept s s2 := by
  refine ⟨hk.1,?_⟩
  have := hk.2
  rwa [hq.files, hq.inflight] at this

theorem leaveExitLoop_kept (h : Inv s L fl) (hp : s.thread initPid = some .user) (v : Int) :
    ∃ s', (exitLoop initPid v childFuel s).bind (leaveExitLoop initPid v) = some s' ∧
    Kept s s' := by
  have hfuel : (L (.children initPid)).length<childFuel :=
    Nat.lt_succ_of_le (h.table.length_le (.children initPid))
  obtain ⟨s1,b,L1,fl1,hloop,hinv,hq,hb⟩ := exitLoop_inv v h hp hfuel
  rw [hloop, Option.bind_some]
  cases b with
  | false => exact ⟨s1,rfl,hinv.kept hq⟩
  | true =>
    obtain ⟨hn,hth⟩ := hb rfl
    obtain ⟨s',L',hs',hinv',hstep⟩ := exitTail_inv hinv hth (fun _ => hn) v
    exact ⟨s',hs',hq.kept ⟨⟨L',fl1,hinv'⟩,hstep⟩⟩

theorem sysExit_kept (h : Inv s L fl) (hp : s.thread p = some .user) (v : Int) :
    ∃ s', sysExit s p v = some s' ∧ Kept s s' := by
  unfold sysExit
  split
  · rename_i hpi
    subst hpi
    exact leaveExitLoop_kept h hp v
  · rename_i hpi
    obtain ⟨s',L',hs',hinv,hstep⟩ := exitTail_inv h hp (fun hc => absurd hc hpi) v
    exact ⟨s',hs',⟨L',fl,hinv⟩,hstep⟩

theorem resume_read_kept (h : Inv s L fl) {f : FcbRef} {port size : Nat}
    (ht : s.thread p = some (.reading f port size)) (hs : s.stopped p = false) {valid : Nat → Bool}
    {ret : State × Option Int} (hr : devread (s.setThread p (some .user)) p f (some port) size 0
      valid .serial = some ret) : Kept s ret.1 := by
  set s1 := s.setThread p (some .user) with hs1
  have hth : Threads s1 := h.toThreads.wake (by simp [ht]) hs
  have huser : s1.thread p = some .user := by simp [hs1, State.setThread]
  have hback : Function.update s1.thread p (some (.reading f port size)) = s.thread := by
    simp [hs1, State.setThread, ← ht]
  have hinf : inflight s.thread =
      Function.update (inflight s1.thread) f (inflight s1.thread f+1) := by
    rw [← inflight_reading (t := .reading f port size) huser rfl, hback]
  have hfids : ∀ F : Files, F.FIDT = s.files.FIDT → ∀ q, (s.procs.PT q).pstate≠.ALIVE →
      ∀ i, F.FIDT q i = none := by
    intro F hF q hq
    rw [hF]
    exact h.fids q hq
  rcases devread_cases hr with ⟨count,hfin⟩ | ⟨port',hret⟩
  · have hok := h.files
    rw [hinf] at hok
    obtain ⟨F,hdec,hstep,hT⟩ := hok.drop
    rw [finishRead_eq (s := s1) hdec hfin]
    rw [← hinf] at hstep
    exact ⟨⟨L,fl,⟨hth.alive,hth.zero,hth.init,hth.last,hth.waiting,hth.ring,hth.rx,hth.active⟩,
      h.table,h.forest,hfids F hT,hstep.ok,h.sound,h.agree⟩,hstep⟩
  · have hinf' : inflight (Function.update s1.thread p (some (.reading f port' size))) =
        inflight s.thread := by
      rw [hinf]
      exact inflight_reading (t := .reading f port' size) huser rfl
    rw [hret]
    refine Inv.kept ⟨hth.waitRxReady huser f port' size,h.table,h.forest,h.fids,?_,h.sound,h.agree⟩
      ⟨rfl,hinf'⟩
    change FilesOk s.files (inflight (Function.update s1.thread p (some (.reading f port' size))))
    rw [hinf']
    exact h.files

theorem resume_wait_kept (h : Inv s L fl) {t : Thread} (ht : s.thread p = some t)
    (hc : t.childWait = true) (hs : s.stopped p = false) (valid : Nat → Bool) :
    ∃ s', resume s p valid = some s' ∧ Kept s s' := by
  have hw := h.waiting p t ht
  have huser : (s.setThread p (some .user)).thread p = some .user := by simp [State.setThread]
  have hres : resume s p valid = resumeFrom (s.setThread p (some .user)) p valid t := by
    rw [resume, ht, Option.bind_some]
  obtain ⟨hinv,hq⟩ := h.wake ht hc hs
  rw [hres]
  cases t with
  | user => cases hc
  | reading => cases hc
  | waitChild c status =>
    obtain ⟨s1,L1,fl1,hs1,hinv1,hq1⟩ := awaitChild_inv hinv huser hw.1 hw.2.1 status
    exact ⟨s1,by rw [resumeFrom, hs1],hinv1.kept (hq.trans hq1)⟩
  | waitAny status =>
    obtain ⟨s1,L1,fl1,hs1,hinv1,hq1⟩ := awaitAny_inv hinv huser hw.1 status
    exact ⟨s1,hs1,hinv1.kept (hq.trans hq1)⟩
  | exitWait v =>
    obtain ⟨rfl,hchild,-⟩ := hw
    rcases awaitAny_eq hinv initPid false (.exitWait v) with ⟨hn,ha⟩ | ⟨c,hz,hpar,ha⟩
    · refine ⟨waitChildExit (s.setThread initPid (some .user)) initPid (.exitWait v),
        by simp only [resumeFrom, ha, Option.bind_some],?_⟩
      exact (block_inv (t := .exitWait v) hinv huser ⟨rfl,hchild,fun _ => hn⟩ rfl).kept
        (hq.trans (block_quiet huser rfl))
    · obtain ⟨L1,hinv1,-⟩ := reap_inv hinv huser hz hpar false
      obtain ⟨s1,hs1,hk⟩ := leaveExitLoop_kept hinv1 huser v
      refine ⟨s1,?_,(hq.trans (reap_quiet _ initPid c false)).kept hk⟩
      simp only [resumeFrom, ha, Option.bind_some]
      exact hs1

theorem resume_kept (h : Inv s L fl) (hs : s.stopped p = false) {valid : Nat → Bool} {s' : State}
    (hr : resume s p valid = some s') : Kept s s' := by
  obtain ⟨t,ht,hfrom⟩ := Option.bind_eq_some_iff.mp hr
  by_cases hc : t.childWait = true
  · obtain ⟨s1,hs1,hk⟩ := resume_wait_kept h ht hc hs valid
    cases hr.symm.trans hs1
    exact hk
  · cases t with
    | user => cases hfrom
    | reading f port size =>
      obtain ⟨ret,hret,rfl⟩ := Option.map_eq_some_iff.mp hfrom
      exact resume_read_kept h ht hs hret
    | _ => simp [Thread.childWait] at hc

theorem serialRx_inv (h : Inv s L fl) : Inv (serialRxHandler s) L fl := by
  have hchild : ∀ p t, s.thread p = some t → t.childWait = true →
      (serialRxHandler s).stopped p = s.stopped p := by
    intro p t ht hc
    simp only [serialRxHandler]
    rw [if_neg]
    rintro ⟨i,-,hm⟩
    obtain ⟨-,f,n,hr⟩ := (h.rx i p).mp hm
    rw [ht] at hr
    cases hr
    cases hc
  refine ⟨⟨h.alive,h.zero,h.init,h.last,?_,?_,?_,h.active⟩,h.table,h.forest,h.fids,h.files,h.sound,
    h.agree⟩
  · intro p t ht
    have hw := h.waiting p t ht
    cases t with
    | user => trivial
    | reading => trivial
    | _ =>
      rw [hchild p _ ht rfl]
      exact hw
  · intro p q
    have hr := h.ring p q
    constructor
    · intro hm
      obtain ⟨hqp,hst,t,ht,hc⟩ := hr.mp hm
      exact ⟨hqp,by rw [hchild p t ht hc]; exact hst,t,ht,hc⟩
    · rintro ⟨hqp,hst,t,ht,hc⟩
      rw [hchild p t ht hc] at hst
      exact hr.mpr ⟨hqp,hst,t,ht,hc⟩
  · intro i q
    have hr := h.rx i q
    constructor
    · intro hm
      by_cases hi : i < s.serialPorts
      · simp [serialRxHandler, hi] at hm
      · obtain ⟨hst,f,n,ht⟩ := hr.mp (by simpa [serialRxHandler, hi] using hm)
        refine ⟨?_,f,n,ht⟩
        simp only [serialRxHandler]
        rw [if_neg]
        · exact hst
        · rintro ⟨j,hj,hmj⟩
          obtain ⟨-,f',n',ht'⟩ := (h.rx j q).mp hmj
          rw [ht] at ht'
          cases ht'
          exact hi hj
    · rintro ⟨hst,f,n,ht⟩
      simp only [serialRxHandler] at hst ⊢
      split at hst
      · cases hst
      · rename_i hnot
        have hm := hr.mpr ⟨hst,f,n,ht⟩
        rw [if_neg fun hi => hnot ⟨i,hi,hm⟩]
        exact hm

theorem step_kept (h : Inv s L fl) {a : Label} (ha : Enabled s a) {s' : State}
    (hs : step s a = some s') : Kept s s' := by
  cases a with
  | exec p call argl args =>
    cases hs
    exact sysExec_kept h ha call argl args
  | exit p v =>
    obtain ⟨s1,hs1,hk⟩ := sysExit_kept h ha v
    cases hs.symm.trans hs1
    exact hk
  | waitChild p cpid status =>
    obtain ⟨s1,L1,fl1,hs1,hinv,hq⟩ := sysWaitChild_inv h ha cpid status
    cases hs.symm.trans hs1
    exact hinv.kept hq
  | openNull p =>
    obtain ⟨r,hr,hown⟩ := h.files.openStream p s.serialPorts .DEV_NULL 0
    simp only [step, State.withFiles, hr, Option.map_some, Option.some.injEq] at hs
    subst hs
    exact hown.kept h ha
  | openTerminal p termno =>
    obtain ⟨r,hr,hown⟩ := h.files.openStream p s.serialPorts .DEV_SERIAL termno
    simp only [step, State.withFiles, hr, Option.map_some, Option.some.injEq] at hs
    subst hs
    exact hown.kept h ha
  | console p =>
    obtain ⟨F,hF,rfl⟩ := Option.map_eq_some_iff.mp hs
    exact (h.files.pseudoConsole hF).kept h ha
  | close p fd =>
    obtain ⟨r,hr,hown⟩ := h.files.sysClose p fd
    simp only [step, State.withFiles, hr, Option.map_some, Option.some.injEq] at hs
    subst hs
    exact hown.kept h ha
  | dup2 p oldfd newfd =>
    obtain ⟨r,hr,hown⟩ := h.files.sysDup2 (inflight_le _) p oldfd newfd
    simp only [step, State.withFiles, hr, Option.map_some, Option.some.injEq] at hs
    subst hs
    exact hown.kept h ha
  | read p fd size inp valid =>
    obtain ⟨ret,hret,rfl⟩ := Option.map_eq_some_iff.mp hs
    exact sysRead_kept h ha hret
  | write p fd size fuel out accept =>
    obtain ⟨r,hr,rfl⟩ := Option.map_eq_some_iff.mp hs
    exact (h.files.sysWrite (inflight_le _) p fd size fuel out accept hr).kept h ha
  | resume p valid => exact resume_kept h ha.2.2 hs
  | serialRx =>
    cases hs
    exact (serialRx_inv h).kept ⟨rfl,rfl⟩
  | releaseTCB =>
    cases hs
    have hpos : s.exited≠0 := ha
    have hact := h.active
    have hinv : Inv { s with exited := s.exited-1, activeThreads := s.activeThreads-1 } L fl := by
      refine ⟨⟨h.alive,h.zero,h.init,h.last,h.waiting,h.ring,h.rx,?_⟩,h.table,h.forest,h.fids,
        h.files,h.sound,h.agree⟩
      change s.activeThreads-1 = liveThreads s.thread+((s.exited-1 : Nat) : Int)
      omega
    exact hinv.kept ⟨rfl,rfl⟩

end
end TinyOS.Kernel
