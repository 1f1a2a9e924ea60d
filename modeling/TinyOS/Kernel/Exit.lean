import TinyOS.Kernel.Invariant

/-! Exit: its clean-up, the adoption of the children and the two broadcasts. -/
namespace TinyOS.Kernel
open RList Tally

structure Broadcast (s : State) (W : PcbRef → Prop) (stopped : PcbRef → Bool)
    (childExit : PcbRef → List PcbRef) : Prop where
  ring : ∀ p q, q∈childExit p ↔ q∈s.childExit p ∧ ¬W p
  stopped : ∀ q, stopped q = true ↔ s.stopped q = true ∧ ∀ p, W p → q∉s.childExit p

theorem exitedPCB_pstate (PT : PcbRef → PCB) (p : PcbRef) (v : Int) {c : PcbRef} (hc : c≠p) :
    (exitedPCB PT p v c).pstate = (PT c).pstate ∧
    (exitedPCB PT p v c).exitval = (PT c).exitval := by
  rw [exitedPCB, if_neg hc]
  split <;> exact ⟨rfl,rfl⟩

theorem exitedPCB_self (PT : PcbRef → PCB) (p : PcbRef) (v : Int) :
    exitedPCB PT p v p = { PT p with pstate := .ZOMBIE, exitval := v, args := none } := by
  rw [exitedPCB, if_pos rfl]

theorem exited_zombie {PT : PcbRef → PCB} {p r c : PcbRef} {v : Int}
    (hz : (exitedPCB PT p v c).pstate = .ZOMBIE) (hpar : (exitedPCB PT p v c).parent = some r) :
    (c = p ∧ (PT p).parent = some r) ∨
    (r = initPid ∧ (PT c).pstate = .ZOMBIE ∧ (PT c).parent = some p) ∨
    ((PT c).pstate = .ZOMBIE ∧ (PT c).parent = some r) := by
  by_cases hc : c = p
  · subst hc
    rw [exitedPCB_self] at hpar
    exact Or.inl ⟨rfl,hpar⟩
  · rw [(exitedPCB_pstate PT p v hc).1] at hz
    rw [exitedPCB, if_neg hc] at hpar
    split at hpar
    · rename_i hch
      exact Or.inr (Or.inl ⟨(Option.some.inj hpar).symm,hz,hch.2⟩)
    · exact Or.inr (Or.inr ⟨hz,hpar⟩)

theorem exited_child {PT : PcbRef → PCB} {p r c : PcbRef} {v : Int} (hr : r≠p)
    (hc : (PT c).pstate≠.FREE) (hpar : (PT c).parent = some r) :
    (exitedPCB PT p v c).pstate≠.FREE ∧ (exitedPCB PT p v c).parent = some r := by
  by_cases hcp : c = p
  · subst hcp
    rw [exitedPCB_self]
    exact ⟨by simp,hpar⟩
  · rw [exitedPCB, if_neg hcp, if_neg]
    · exact ⟨hc,hpar⟩
    · rintro ⟨-,h⟩
      rw [hpar] at h
      exact hr (Option.some.inj h)

theorem Waiting.exit {PT : PcbRef → PCB} {p r : PcbRef} {v : Int} {b b' : Bool} {t : Thread}
    (hw : Waiting PT b r t) (hr : r≠p) (hb : b' = true → b = true)
    (hpar : b' = true → t.childWait = true → (PT p).parent≠some r)
    (hinit : b' = true → t.childWait = true → r = initPid →
      ∀ c, (PT c).pstate = .ZOMBIE → (PT c).parent≠some p) :
    Waiting (exitedPCB PT p v) b' r t := by
  have hchild : HasChild PT r → HasChild (exitedPCB PT p v) r := by
    rintro ⟨c,hc,hp⟩
    exact ⟨c,exited_child hr hc hp⟩
  have hexited : t.childWait = true → (b = true → NoExited PT r) → b' = true →
      NoExited (exitedPCB PT p v) r := by
    intro ht hn hb' c hz hp
    rcases exited_zombie hz hp with ⟨-,h⟩ | ⟨hri,hzc,hpc⟩ | ⟨hzc,hpc⟩
    · exact hpar hb' ht h
    · exact hinit hb' ht hri c hzc hpc
    · exact hn (hb hb') c hzc hpc
  cases t with
  | user => trivial
  | reading => trivial
  | waitChild c st =>
    obtain ⟨hf,hp⟩ := exited_child (v := v) hr hw.1 hw.2.1
    refine ⟨hf,hp,fun hb' => ?_⟩
    have hcp : c≠p := by
      rintro rfl
      exact hpar hb' rfl hw.2.1
    rw [(exitedPCB_pstate PT p v hcp).1]
    exact hw.2.2 (hb hb')
  | waitAny st => exact ⟨hchild hw.1,hexited rfl hw.2⟩
  | exitWait w => exact ⟨hw.1,hchild hw.2.1,hexited rfl hw.2.2⟩

def afterExit (s : State) (p : PcbRef) (v : Int) (procs : Procs) (files : Files)
    (stopped : PcbRef → Bool) (childExit : PcbRef → List PcbRef) : State :=
  { s with
    procs := procs
    files := files
    thread := Function.update s.thread p none
    stopped := stopped
    childExit := childExit
    exited := s.exited+1
    log := s.log++[.exit p v] }

section
variable {s : State} {L L' : Kin → List PcbRef} {fl : List PcbRef} {p : PcbRef} {v : Int}

theorem Ledger.Matches.exit {l : Ledger} {PT PT' : PcbRef → PCB} {i : Incarnation}
    (h : l.Matches PT)
    (hi : l.live p = some i)
    (hPT : ∀ c, PT' c = exitedPCB PT p v c) : (l.record (.exit p v)).Matches PT' := by
  have hlive : ∀ c, (l.record (.exit p v)).live c =
      if c = p then some { i with exitval := some v } else (l.live c).map (·.adopt p) := by
    intro c
    simp [Ledger.record, hi]
  refine ⟨?_,?_,?_⟩
  · intro c
    rw [hlive, hPT]
    by_cases hc : c = p
    · rw [if_pos hc, hc, exitedPCB_self]
      simp
    · rw [if_neg hc, (exitedPCB_pstate PT p v hc).1, ← h.free c, Option.map_eq_none_iff]
  · intro c j hj
    rw [hlive] at hj
    rw [hPT]
    by_cases hc : c = p
    · subst hc
      rw [if_pos rfl] at hj
      cases hj
      rw [exitedPCB_self]
      exact h.parent c i hi
    · rw [if_neg hc] at hj
      obtain ⟨k,hk,rfl⟩ := Option.map_eq_some_iff.mp hj
      have hpar := h.parent c k hk
      have hfree : (PT c).pstate≠.FREE := fun hf => by
        rw [(h.free c).mpr hf] at hk
        cases hk
      rw [exitedPCB, if_neg hc, Incarnation.adopt, hpar]
      by_cases hcp : (PT c).parent = some p
      · simp [hcp, hfree]
      · simp [hcp, hpar]
  · intro c j hj
    rw [hlive] at hj
    rw [hPT]
    by_cases hc : c = p
    · rw [if_pos hc] at hj
      cases hj
      rw [hc, exitedPCB_self]
      simp
    · rw [if_neg hc] at hj
      obtain ⟨k,hk,rfl⟩ := Option.map_eq_some_iff.mp hj
      rw [(exitedPCB_pstate PT p v hc).1, (exitedPCB_pstate PT p v hc).2, (k.adopt_id p).2]
      exact h.exitval c k hk

theorem afterExit_inv {procs : Procs} {files : Files} {W : PcbRef → Prop} {stopped : PcbRef → Bool}
    {childExit : PcbRef → List PcbRef} (h : Inv s L fl) (hp : s.thread p = some .user)
    (hn : p = initPid → L (.children initPid) = []) (htable : Table procs L' fl)
    (hPT : ∀ c, procs.PT c = exitedPCB s.procs.PT p v c)
    (hfiles : FilesOk files (inflight s.thread)) (hown : ∀ q, q≠p → files.FIDT q = s.files.FIDT q)
    (hclosed : ∀ i, files.FIDT p i = none) (hb : Broadcast s W stopped childExit)
    (hparent : ∀ q, (s.procs.PT p).parent = some q → W q)
    (hinit : (∃ c, (s.procs.PT c).pstate = .ZOMBIE ∧ (s.procs.PT c).parent = some p) → W initPid) :
    Inv (afterExit s p v procs files stopped childExit) L' fl ∧
      inflight (afterExit s p v procs files stopped childExit).thread = inflight s.thread := by
  have halive := h.alive p (by simp [hp])
  have hp0 : p≠0 := fun he => by
    rw [he, h.zero] at hp
    cases hp
  have hPT' : procs.PT = exitedPCB s.procs.PT p v := funext hPT
  have hinf : inflight (Function.update s.thread p none) = inflight s.thread :=
    inflight_update (by rw [hp]; rfl)
  have hsleep : ∀ r t, s.thread r = some t → t.childWait = true → stopped r = true → ¬W r := by
    intro r t ht hcw hst hW
    obtain ⟨hs,hnot⟩ := (hb.stopped r).mp hst
    exact hnot r hW ((h.ring r r).mpr ⟨rfl,hs,t,ht,hcw⟩)
  obtain ⟨i,hi⟩ : ∃ i, (ledger s.log).live p = some i :=
    Option.ne_none_iff_exists'.mp fun hc => by simp [(h.agree.free p).mp hc] at halive
  have hival : i.exitval = none := by
    rw [h.agree.exitval p i hi, if_neg (by simp [halive])]
  have hlog : ledger (afterExit s p v procs files stopped childExit).log =
      (ledger s.log).record (.exit p v) := ledger_append s.log _
  have hthread : ∀ q t, Function.update s.thread p none q = some t → q≠p ∧ s.thread q = some t := by
    intro q t ht
    by_cases hq : q = p
    · simp [hq] at ht
    · exact ⟨hq,by simpa [hq] using ht⟩
  have hfree : p = initPid → ∀ q : PcbRef, 1<q.val → (s.procs.PT q).pstate = .FREE :=
    fun hpi q hq =>
    h.table.free_of_no_children h.forest (hn hpi) hq
  refine ⟨⟨⟨?_,?_,?_,?_,?_,?_,?_,?_⟩,htable,?_,?_,?_,?_,?_⟩,hinf⟩
  · intro q hq
    obtain ⟨t,ht⟩ := Option.ne_none_iff_exists'.mp hq
    obtain ⟨hqp,ht'⟩ := hthread q t ht
    change (procs.PT q).pstate = _
    rw [hPT, (exitedPCB_pstate _ p v hqp).1]
    exact h.alive q (by simp [ht'])
  · simpa [afterExit, hp0.symm] using h.zero
  · intro hi'
    change (procs.PT initPid).pstate = _ at hi'
    by_cases hpi : p = initPid
    · rw [hPT, ← hpi, exitedPCB_self] at hi'
      cases hi'
    · rw [hPT, (exitedPCB_pstate _ p v (Ne.symm hpi)).1] at hi'
      simpa [afterExit, Ne.symm hpi] using h.init hi'
  · intro hi' q hq
    change (procs.PT initPid).pstate≠_ at hi'
    change (procs.PT q).pstate = _
    by_cases hpi : p = initPid
    · have hqp : q≠p := by
        rintro rfl
        rw [hpi, initPid_val] at hq
        omega
      rw [hPT, (exitedPCB_pstate _ p v hqp).1]
      exact hfree hpi q hq
    · rw [hPT, (exitedPCB_pstate _ p v (Ne.symm hpi)).1] at hi'
      exact absurd (h.init_alive (p := p) (by simp [hp])) hi'
  · intro r t ht
    obtain ⟨hrp,ht'⟩ := hthread r t ht
    change Waiting procs.PT (stopped r) r t
    rw [hPT']
    refine (h.waiting r t ht').exit hrp (fun hst => ((hb.stopped r).mp hst).1) ?_ ?_
    · exact fun hst hcw hpar => hsleep r t ht' hcw hst (hparent r hpar)
    · intro hst hcw hri c hz hc
      exact hsleep r t ht' hcw hst (hri ▸ hinit ⟨c,hz,hc⟩)
  · intro q r
    change r∈childExit q ↔ r = q ∧ stopped q = true ∧
      ∃ t, Function.update s.thread p none q = some t ∧ t.childWait = true
    rw [hb.ring, hb.stopped, h.ring]
    by_cases hqp : q = p
    · subst hqp
      simp [hp, Thread.childWait]
    · rw [Function.update_of_ne hqp]
      constructor
      · rintro ⟨⟨rfl,hs,t,ht,hcw⟩,hW⟩
        refine ⟨rfl,⟨hs,fun q' hW' hm => ?_⟩,t,ht,hcw⟩
        obtain ⟨rfl,-⟩ := (h.ring q' r).mp hm
        exact hW hW'
      · rintro ⟨rfl,⟨hs,hnot⟩,t,ht,hcw⟩
        exact ⟨⟨rfl,hs,t,ht,hcw⟩,fun hW => hnot r hW ((h.ring r r).mpr ⟨rfl,hs,t,ht,hcw⟩)⟩
  · intro j q
    change q∈s.rxReady j ↔ stopped q = true ∧
      ∃ fcb size, Function.update s.thread p none q = some (.reading fcb j size)
    rw [hb.stopped, h.rx]
    by_cases hqp : q = p
    · subst hqp
      simp [hp]
    · rw [Function.update_of_ne hqp]
      constructor
      · rintro ⟨hs,f,n,ht⟩
        refine ⟨⟨hs,fun q' _ hm => ?_⟩,f,n,ht⟩
        obtain ⟨rfl,-,t,ht',hcw⟩ := (h.ring q' q).mp hm
        rw [ht] at ht'
        cases ht'
        cases hcw
      · rintro ⟨⟨hs,-⟩,hr⟩
        exact ⟨hs,hr⟩
  · have hu := liveThreads_update s.thread p none
    simp only [hp, reduceCtorEq, if_false, if_true] at hu
    have := h.active
    change s.activeThreads = liveThreads
      (Function.update s.thread p none)+((s.exited+1 : Nat) : Int)
    omega
  · change Forest procs.PT
    rw [hPT']
    exact h.forest.exit halive v (fun _ => h.init_alive (p := p) (by simp [hp])) hfree
  · intro q hq
    change (procs.PT q).pstate≠_ at hq
    by_cases hqp : q = p
    · subst hqp
      exact hclosed
    · rw [hPT, (exitedPCB_pstate _ p v hqp).1] at hq
      change ∀ i, files.FIDT q i = none
      rw [hown q hqp]
      exact h.fids q hq
  · change FilesOk files (inflight (Function.update s.thread p none))
    rw [hinf]
    exact hfiles
  · rw [hlog]
    exact h.sound.exit hi hival
  · rw [hlog]
    exact h.agree.exit hi hPT

theorem Broadcast.none (s : State) : Broadcast s (fun _ => False) s.stopped s.childExit :=
  ⟨by simp,by simp⟩

theorem Broadcast.cons {W : PcbRef → Prop} {t : State} (h : Broadcast s W t.stopped t.childExit)
    (q : PcbRef) : Broadcast s (fun r => W r ∨ r = q) (broadcastChildExit t q).stopped
      (broadcastChildExit t q).childExit := by
  constructor
  · intro r x
    simp only [broadcastChildExit]
    by_cases hr : r = q
    · simp [hr]
    · simp [hr, h.ring]
  · intro x
    simp only [broadcastChildExit]
    by_cases hx : x∈t.childExit q
    · simp only [hx, if_true, Bool.false_eq_true, false_iff, not_and, not_forall]
      intro _
      exact ⟨q,Or.inr rfl,fun hm => hm ((h.ring q x).mp hx).1⟩
    · simp only [hx, if_false, h.stopped]
      constructor
      · rintro ⟨hs,hn⟩
        refine ⟨hs,fun r hr => ?_⟩
        rcases hr with hr | rfl
        · exact hn r hr
        · intro hm
          by_cases hW : W r
          · exact hn r hW hm
          · exact hx ((h.ring r x).mpr ⟨hm,hW⟩)
      · rintro ⟨hs,hn⟩
        exact ⟨hs,fun r hr => hn r (Or.inl hr)⟩

theorem getPcb_some {P : Procs} (h : (P.PT p).pstate≠.FREE) : getPcb P p = some p := by
  simp [getPcb, h]

/-- sys_Exit after its loop never fails and keeps the invariant. -/
theorem exitTail_inv (h : Inv s L fl) (hp : s.thread p = some .user)
    (hn : p = initPid → L (.children initPid) = []) (v : Int) :
    ∃ s' L', exitTail s p v = some s' ∧ Inv s' L' fl ∧
      FilesStep s.files (inflight s.thread) s'.files (inflight s'.thread) := by
  have halive := h.alive p (by simp [hp])
  have hinit := h.init_alive (p := p) (by simp [hp])
  obtain ⟨files,hclose,hstep,hown,hclosed⟩ := h.files.closeFIDT p
  set P1 := s.procs.modPCB p fun b => { b with args := none } with hP1
  have hP1init : (P1.PT initPid).pstate≠.FREE := by
    by_cases hpi : p = initPid
    · simp [hP1, Procs.modPCB, ← hpi, halive]
    · simp [hP1, Procs.modPCB, Ne.symm hpi, hinit]
  have htail : ∀ P2, reparent (some initPid) p childFuel P1 = some P2 → exitTail s p v =
      (adoptExited { s with procs := P2, files := files } (some initPid) p).map fun s =>
        { ((tellParent s p).record (.exit p v)).setThread p none with
          procs := markZombie (tellParent s p).procs p v
          exited := (tellParent s p).exited+1 } := by
    intro P2 hP2
    simp only [exitTail, ← hP1, hclose, Option.bind_some, getPcb_some hP1init, hP2]
  by_cases hpi : p = initPid
  · subst hpi
    have hroot := (h.forest.root initPid (by rw [initPid_val])).2
    obtain ⟨hrep,hempty,htable,hPT⟩ := h.table.exit_init hinit hroot (hn rfl) v
      (Nat.succ_pos _ : 0<childFuel) hP1
    obtain ⟨hinv,hinf⟩ := afterExit_inv h hp hn htable hPT hstep.ok hown hclosed (Broadcast.none s)
      (by simp [hroot]) (by
        rintro ⟨c,hz,hc⟩
        have hm := (h.table.children initPid c).mpr ⟨by simp [hz],hc⟩
        rw [hn rfl] at hm
        cases hm)
    refine ⟨_,L,?_,hinv,?_⟩
    · have hpar : (P1.PT initPid).parent = none := by
        simpa [hP1, Procs.modPCB] using hroot
      rw [htail P1 hrep, adoptExited, if_pos hempty, Option.map_some]
      simp only [tellParent, hpar]
      rfl
    · rw [hinf]
      exact hstep
  · have hv : 1<p.val := by
      have h0 : p.val≠0 := fun hc => by
        rw [show p = 0 from Fin.ext hc, h.zero] at hp
        cases hp
      have h1 : p.val≠1 := fun hc => hpi (Fin.ext hc)
      omega
    have hfree : (s.procs.PT p).pstate≠.FREE := by simp [halive]
    obtain ⟨q,hq,-⟩ := h.forest.parent hv hfree
    have hqp : q≠p := (h.forest.rooted p hv hfree).parent_ne hpi hq
    obtain ⟨P2,hrep,hpar2,hempty,hrest⟩ := h.table.exit halive hpi hq hqp v
      (Nat.lt_succ_self _ : MAX_PROC<childFuel)
    obtain ⟨hpar3,⟨L',htable⟩,hPT⟩ := hrest _ rfl
    set s2 : State := { s with procs := P2, files := files } with hs2
    by_cases hex : L (.exited p) = []
    · rw [if_pos hex] at hpar3 htable hPT
      have hb := (Broadcast.none s).cons (t := { s2 with procs := reportExit P2 q p }) q
      obtain ⟨hinv,hinf⟩ := afterExit_inv h hp hn htable hPT hstep.ok hown hclosed hb
        (by simp [hq]) (by
          rintro ⟨c,hc⟩
          have := (h.table.exited p c).mpr hc
          rw [hex] at this
          cases this)
      refine ⟨_,L',?_,hinv,?_⟩
      · rw [htail P2 hrep, adoptExited, hempty, if_pos (by simp [hex]), Option.map_some]
        simp only [tellParent, hpar2]
        rfl
      · rw [hinf]
        exact hstep
    · rw [if_neg hex] at hpar3 htable hPT
      have hb1 := (Broadcast.none s).cons (t := { s2 with procs := handOver P2 initPid p }) initPid
      set s3 := broadcastChildExit { s2 with procs := handOver P2 initPid p } initPid with hs3
      have hb := hb1.cons (t := { s3 with procs := reportExit (handOver P2 initPid p) q p }) q
      obtain ⟨hinv,hinf⟩ := afterExit_inv h hp hn htable hPT hstep.ok hown hclosed hb
        (by simp [hq]) (by simp)
      refine ⟨_,L',?_,hinv,?_⟩
      · rw [htail P2 hrep, adoptExited, hempty, if_neg (by simp [hex]), Option.map_some,
          Option.map_some]
        have htell : tellParent s3 p =
            broadcastChildExit { s3 with procs := reportExit (handOver P2 initPid p) q p } q := by
          rw [tellParent, show (s3.procs.PT p).parent = some q from hpar3]
          rfl
        change some { ((tellParent s3 p).record (.exit p v)).setThread p none with
          procs := markZombie (tellParent s3 p).procs p v
          exited := (tellParent s3 p).exited+1 } = _
        rw [htell]
        rfl
      · rw [hinf]
        exact hstep

end

end TinyOS.Kernel
