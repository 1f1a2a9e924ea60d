import TinyOS.CC.Safety
import TinyOS.Sched.Exit

/-! The lifetime of a thread, over the scheduler and kernel_cc.c together. The two
interleave freely, so sleeps and wakeups of the one need not match those of the other;
what they share is that a thread runs in kernel_cc.c while a core runs it, and that
kernel_sleep(EXITED) ends both. -/
namespace TinyOS.Sched
open RList
variable {κ τ γ μ : Type*}

/-- The TCBs created by spawn_thread and given back by release_TCB are kept in order. -/
structure Machine (κ τ γ μ : Type*) where
  sched : State κ τ
  cc : CC.State (TcbRef κ τ) γ μ
  spawned : List τ
  released : List τ

inductive Action (κ τ γ μ : Type*) where
  | sched (a : Label κ τ)
  /-- The thread on core c calls kernel_cc.c, or takes its next step there. -/
  | call (c : κ) (b : CC.Call γ μ)
  | run (c : κ)
  | expire (r : TcbRef κ τ)
  /-- sleep_releasing of kernel_sleep(EXITED), by the thread on core c. -/
  | exit (c : κ) (systemClock : Nat)

section
variable [DecidableEq κ] [DecidableEq τ] [DecidableEq γ] [DecidableEq μ]

def newThread (s : CC.State (TcbRef κ τ) γ μ) (t : τ) : CC.State (TcbRef κ τ) γ μ :=
  { s.goto (.normal t) .user with stopped := Function.update s.stopped (.normal t) false }

def Label.spawns : Label κ τ → Option τ
  | .spawn t => some t
  | _ => none

def Machine.sections (m : Machine κ τ γ μ) (a : Label κ τ) : Option (Machine κ τ γ μ) :=
  (exec m.sched a).map fun s =>
    { sched := s
      cc := match a.spawns with
        | some t => newThread m.cc t
        | none => m.cc
      spawned := m.spawned++a.spawns.toList
      released := m.released++(releasedBy m.sched a).toList }

def Machine.steps (m : Machine κ τ γ μ) (b : CC.Label (TcbRef κ τ) γ μ) : Option (Machine κ τ γ μ) :=
  if CC.Enabled m.cc b then (CC.exec m.cc b).map fun cc => { m with cc := cc } else none

def Machine.next (m : Machine κ τ γ μ) : Action κ τ γ μ → Option (Machine κ τ γ μ)
  | .sched a => if Enabled m.sched a ∧ exitedBy m.sched a = none then m.sections a else none
  | .call c b => if m.sched.pc c = .running then m.steps (.call (m.sched.currentThread c) b) else none
  | .run c =>
    if m.sched.pc c = .running ∧ m.cc.pc (m.sched.currentThread c)≠.sleep true then
      m.steps (.run (m.sched.currentThread c))
    else none
  | .expire r => m.steps (.expire r)
  | .exit c systemClock =>
    if Enabled m.sched (.sleep c .EXITED none systemClock) ∧
        m.cc.pc (m.sched.currentThread c) = .sleep true then
      (m.steps (.run (m.sched.currentThread c))).bind fun m =>
        m.sections (.sleep c .EXITED none systemClock)
    else none

variable (κ τ γ μ)

def machine : Transition.System (Machine κ τ γ μ) (Action κ τ γ μ) where
  init m := m = ⟨boot,CC.boot,[],[]⟩
  next := Machine.next

end

variable [DecidableEq κ] [DecidableEq τ] [DecidableEq γ] [DecidableEq μ]
variable {m m' : Machine κ τ γ μ} {t : τ}

/-- What the two sides agree on. -/
structure Live (m : Machine κ τ γ μ) : Prop where
  sched : ∃ q tl, Inv m.sched q tl
  cc : ∃ L, CC.Inv m.cc L
  rest : ∀ c, m.sched.pc c = .off ∨ m.sched.pc c = .left → m.sched.currentThread c = .idle c
  gone : ∀ t, t∉m.sched.threads → m.cc.pc (.normal t) = .user ∨ m.cc.pc (.normal t) = .exited
  exited : ∀ t, Exited m.sched t → m.cc.pc (.normal t) = .exited
  counts : ∀ t, m.spawned.count t = m.released.count t+m.sched.threads.count t
  total : m.spawned.length = m.released.length+m.sched.threads.length

theorem exec_rest {s s' : State κ τ} {a : Label κ τ} (ha : Enabled s a) (hs : exec s a = some s')
    (h : ∀ c, s.pc c = .off ∨ s.pc c = .left → s.currentThread c = .idle c) (c : κ)
    (hc : s'.pc c = .off ∨ s'.pc c = .left) : s'.currentThread c = .idle c := by
  by_cases hcore : a.core = some c
  · cases a with
    | enter c' =>
      cases hs
      cases hcore
      simp [runScheduler]
    | leave c' =>
      cases hs
      cases hcore
      exact ha.2.1
    | spawn t => cases hcore
    | wakeup t => cases hcore
    | sleep c' state msec systemClock =>
      cases hcore
      rw [(sleep_keeps hs).pc] at hc
      simp [State.setPc] at hc
    | yield c' systemClock =>
      cases hcore
      obtain ⟨next,hl⟩ := yield_linked hs
      simp [hl.pc] at hc
    | swap c' =>
      cases hcore
      obtain ⟨next,hpc⟩ := ha
      simp only [exec, swapContext, hpc, Option.some.injEq] at hs
      subst hs
      simp at hc
    | gain c' =>
      cases hcore
      simp [(gain_gained hs).pc] at hc
  · obtain ⟨hpc,hcur⟩ := exec_other hs hcore
    rw [hcur]
    exact h c (by rwa [hpc] at hc)

omit [DecidableEq κ] [DecidableEq τ] in
theorem spawns_eq {a : Label κ τ} {t : τ} (h : a.spawns = some t) : a = .spawn t := by
  cases a <;> simp_all [Label.spawns]

theorem releasedBy_mem {s : State κ τ} {a : Label κ τ} (h : Cores s) (ha : Enabled s a)
    (hr : releasedBy s a = some t) : t∈s.threads := by
  obtain ⟨c,rfl,-,hprev,-⟩ := releasedBy_eq.mp hr
  have hpc : s.pc c = .switched := ha
  exact h.held c t (by simp [Holds, hpc, hprev])

omit [DecidableEq κ] in
theorem mem_threadsAfter [DecidableEq κ] {s : State κ τ} {a : Label κ τ} (ht : t∈s.threads)
    (hr : releasedBy s a≠some t) : t∈threadsAfter s a := by
  cases hb : releasedBy s a with
  | some u =>
    have hne : t≠u := fun he => hr (by rw [hb, he])
    simpa [threadsAfter, hb, List.mem_erase_of_ne hne] using ht
  | none => cases a <;> simp [threadsAfter, hb, ht]

theorem not_mem_threadsAfter {s : State κ τ} {a : Label κ τ} (ht : t∉s.threads)
    (ha : a.spawns≠some t) : t∉threadsAfter s a := by
  cases hb : releasedBy s a with
  | some u =>
    simp only [threadsAfter, hb]
    exact fun hm => ht (List.mem_of_mem_erase hm)
  | none =>
    cases a with
    | spawn u =>
      have hne : t≠u := fun he => ha (by rw [he]; rfl)
      simpa [threadsAfter, hb, ht] using hne
    | _ => simpa [threadsAfter, hb] using ht

theorem threadsAfter_count {s : State κ τ} {a : Label κ τ} (h : Cores s) (ha : Enabled s a)
    (t : τ) :
    (threadsAfter s a).count t+(releasedBy s a).toList.count t =
      s.threads.count t+a.spawns.toList.count t := by
  cases hr : releasedBy s a with
  | none => cases a <;> simp [threadsAfter, hr, Label.spawns]
  | some u =>
    have hu := List.count_pos_iff.mpr (releasedBy_mem h ha hr)
    obtain ⟨c,rfl,-⟩ := releasedBy_eq.mp hr
    simp only [threadsAfter, hr, Label.spawns, Option.toList, List.count_nil, List.count_erase,
      List.count_singleton]
    by_cases ht : u = t
    · subst ht
      simp
      omega
    · simp [ht]

theorem threadsAfter_length {s : State κ τ} {a : Label κ τ} (h : Cores s) (ha : Enabled s a) :
    (threadsAfter s a).length+(releasedBy s a).toList.length =
      s.threads.length+a.spawns.toList.length := by
  cases hr : releasedBy s a with
  | none => cases a <;> simp [threadsAfter, hr, Label.spawns]
  | some u =>
    have hu := releasedBy_mem h ha hr
    have hpos := List.length_pos_of_mem hu
    obtain ⟨c,rfl,-⟩ := releasedBy_eq.mp hr
    simp only [threadsAfter, hr, Label.spawns, Option.toList, List.length_erase_of_mem hu,
      List.length_cons, List.length_nil]
    omega

theorem newThread_inv {s : CC.State (TcbRef κ τ) γ μ} {L : CC.CondVar γ → List CC.WaiterRef}
    (h : CC.Inv s L) (hpc : s.pc (.normal t) = .user ∨ s.pc (.normal t) = .exited) :
    CC.Inv (newThread s t) L := by
  have hlocks : ∀ y, CC.Pc.locks .user y = (s.pc (.normal t)).locks y := by
    intro y
    rcases hpc with hpc | hpc <;> cases y <;> simp [hpc, CC.Pc.locks]
  refine h.plain (t := .normal t) (p := .user) ⟨rfl,rfl,rfl,rfl,rfl,rfl,rfl,?_,fun _ _ => rfl⟩
    (h.locks.same fun y _ => hlocks y) (fun _ => trivial) ?_ ?_ ?_
  · intro u hu
    simp [newThread, hu]
  · rcases hpc with hpc | hpc <;> simp [hpc]
  · rcases hpc with hpc | hpc <;> simp [hpc]
  · refine h.toKernelSem.keeps (t := .normal t) (p := .user) rfl rfl rfl trivial
      (by simp [CC.Pc.givesUp]) (fun u hu => by simp [newThread, hu]) (by simp [CC.Pc.role]) ?_
    rcases hpc with hpc | hpc <;> simp [CC.State.role, hpc, CC.Pc.role, CC.Role.helps]

theorem sections_live {a : Label κ τ} (h : Live m) (ha : Enabled m.sched a)
    (hx : ∀ t, exitedBy m.sched a = some (.normal t) → m.cc.pc (.normal t) = .exited)
    (hs : m.sections a = some m') : Live m' := by
  obtain ⟨s,hexec,rfl⟩ := Option.map_eq_some_iff.mp hs
  obtain ⟨q,tl,hinv⟩ := h.sched
  obtain ⟨L,hcc⟩ := h.cc
  obtain ⟨s1,q',tl',hs1,hinv'⟩ := exec_inv hinv ha
  obtain rfl : s1 = s := by simpa [hs1] using hexec
  have hthr := exec_threads hs1
  -- only a spawn touches kernel_cc.c
  have hpc : ∀ u, a.spawns≠some u →
      (match a.spawns with | some t => newThread m.cc t | none => m.cc).pc (.normal u) =
        m.cc.pc (.normal u) := by
    intro u hu
    cases hsp : a.spawns with
    | none => rfl
    | some t =>
      have hne : u≠t := fun he => hu (by rw [hsp, he])
      simp [newThread, CC.State.goto, hne]
  have hspawned : ∀ u, a.spawns = some u → u∈s1.threads ∧ (s1.tcb (.normal u)).state = .INIT := by
    intro u hu
    obtain rfl := spawns_eq hu
    cases hs1
    simp [spawnThread]
  refine ⟨⟨q',tl',hinv'⟩,?_,exec_rest ha hs1 h.rest,?_,?_,?_,?_⟩
  · cases hsp : a.spawns with
    | none => exact ⟨L,hcc⟩
    | some t =>
      obtain rfl := spawns_eq hsp
      exact ⟨L,newThread_inv hcc (h.gone t ha)⟩
  · intro u hu
    dsimp only at hu ⊢
    rw [hpc u fun hsp => hu (hspawned u hsp).1]
    by_cases hold : u∈m.sched.threads
    · right
      apply h.exited u
      cases hr : releasedBy m.sched a with
      | none =>
        rw [hthr] at hu
        cases a <;> simp_all [threadsAfter]
      | some v =>
        obtain ⟨c,rfl,-,hprev,hst⟩ := releasedBy_eq.mp hr
        have huv : u = v := by
          by_contra hne
          apply hu
          rw [hthr]
          simp [threadsAfter, hr, List.mem_erase_of_ne hne, hold]
        exact ⟨hold,huv ▸ hst⟩
    · exact h.gone u hold
  · intro u hu
    have hns : a.spawns≠some u := by
      intro hsp
      have := hu.state.symm.trans (hspawned u hsp).2
      cases this
    rw [hpc u hns]
    have hold : u∈m.sched.threads := by
      have hm : u∈threadsAfter m.sched a := hthr ▸ hu.allocated
      cases hr : releasedBy m.sched a with
      | some v =>
        simp only [threadsAfter, hr] at hm
        exact List.mem_of_mem_erase hm
      | none =>
        cases a with
        | spawn v =>
          have hne : u≠v := fun he => hns (by rw [he]; rfl)
          simpa [threadsAfter, hr, hne] using hm
        | _ => simpa [threadsAfter, hr] using hm
    by_cases hex : exitedBy m.sched a = some (.normal u)
    · exact hx u hex
    · exact h.exited u ⟨hold,(exec_exited hinv.toCores ha hs1 hold hex).mp hu.state⟩
  · intro u
    have := threadsAfter_count hinv.toCores ha u
    have := h.counts u
    simp only [List.count_append, hthr]
    omega
  · have hlen : (threadsAfter m.sched a).length+(releasedBy m.sched a).toList.length =
        m.sched.threads.length+a.spawns.toList.length := threadsAfter_length hinv.toCores ha
    have := h.total
    simp only [List.length_append, hthr]
    omega

def Moves (b : CC.Label (TcbRef κ τ) γ μ) (r : TcbRef κ τ) : Prop :=
  b = .run r ∨ ∃ c, b = .call r c

theorem steps_live {b : CC.Label (TcbRef κ τ) γ μ} (h : Live m)
    (hb : ∀ r, Moves b r → ∃ c, m.sched.pc c = .running ∧ m.sched.currentThread c = r)
    (hs : m.steps b = some m') : Live m' ∧ m'.sched = m.sched ∧ m'.released = m.released := by
  unfold Machine.steps at hs
  split at hs
  · rename_i hen
    obtain ⟨cc,hexec,rfl⟩ := Option.map_eq_some_iff.mp hs
    obtain ⟨L,hL⟩ := h.cc
    obtain ⟨q,tl,hinv⟩ := h.sched
    obtain ⟨cc',L',he,hL'⟩ := CC.exec_inv hL hen
    obtain rfl : cc' = cc := by simpa [he] using hexec
    -- a thread that is not running stays where it is
    have hpc : ∀ r, (∀ c, ¬(m.sched.pc c = .running ∧ m.sched.currentThread c = r)) →
        cc'.pc r = m.cc.pc r := by
      intro r hr
      have hmoves : ¬Moves b r := fun hm => (hb r hm).elim hr
      cases b with
      | call v c =>
        cases he
        exact CC.call_pc c fun he => hmoves (by rw [he]; exact Or.inr ⟨c,rfl⟩)
      | run v => exact CC.runThread_pc he fun he => hmoves (by rw [he]; exact Or.inl rfl)
      | expire v =>
        cases he
        simp only [CC.wakeup]
        split <;> rfl
    refine ⟨⟨h.sched,⟨L',hL'⟩,h.rest,?_,?_,h.counts,h.total⟩,rfl,rfl⟩
    · intro t ht
      rw [hpc (.normal t) ?_]
      · exact h.gone t ht
      · rintro c ⟨hc,hcur⟩
        exact ht (hinv.held c t (by simp [Holds, hc, hcur]))
    · intro t ht
      rw [hpc (.normal t) ?_]
      · exact h.exited t ht
      · rintro c ⟨hc,hcur⟩
        have hcore := hinv.core c
        simp only [CoreOk, hc, hcur] at hcore
        have := ht.state.symm.trans hcore.1
        cases this
  · cases hs

def Action.label : Action κ τ γ μ → Option (Label κ τ)
  | .sched a => some a
  | .exit c systemClock => some (.sleep c .EXITED none systemClock)
  | .call _ _ | .run _ | .expire _ => none

def Action.core (a : Action κ τ γ μ) : Option κ := a.label.bind Label.core

def Follows (m m' : Machine κ τ γ μ) : Option (Label κ τ) → Prop
  | some b => Enabled m.sched b ∧ exec m.sched b = some m'.sched ∧
    m'.released = m.released++(releasedBy m.sched b).toList
  | none => m'.sched = m.sched ∧ m'.released = m.released

theorem next_live {a : Action κ τ γ μ} (h : Live m) (hn : m.next a = some m') :
    Live m' ∧ Follows m m' a.label := by
  have hsections : ∀ {m1 : Machine κ τ γ μ} {b}, m1.sections b = some m' →
      exec m1.sched b = some m'.sched ∧
        m'.released = m1.released++(releasedBy m1.sched b).toList := by
    intro m1 b hs
    obtain ⟨s,hexec,rfl⟩ := Option.map_eq_some_iff.mp hs
    exact ⟨hexec,rfl⟩
  cases a with
  | sched a =>
    simp only [Machine.next] at hn
    split at hn
    · rename_i ha
      exact ⟨sections_live h ha.1 (by simp [ha.2]) hn,ha.1,hsections hn⟩
    · cases hn
  | call c b =>
    simp only [Machine.next] at hn
    split at hn
    · rename_i hc
      obtain ⟨hl,hs,hr⟩ := steps_live h (fun r hr => ⟨c,hc,by simpa [Moves, eq_comm] using hr⟩) hn
      exact ⟨hl,hs,hr⟩
    · cases hn
  | run c =>
    simp only [Machine.next] at hn
    split at hn
    · rename_i hc
      obtain ⟨hl,hs,hr⟩ := steps_live h (fun r hr => ⟨c,hc.1,by simpa [Moves, eq_comm] using hr⟩) hn
      exact ⟨hl,hs,hr⟩
    · cases hn
  | expire r =>
    obtain ⟨hl,hs,hr⟩ := steps_live h (fun r hr => by simp [Moves] at hr) hn
    exact ⟨hl,hs,hr⟩
  | exit c systemClock =>
    simp only [Machine.next] at hn
    split at hn
    · rename_i ha
      obtain ⟨m1,hs1,hs2⟩ := Option.bind_eq_some_iff.mp hn
      obtain ⟨hl,hsame,hrel⟩ := steps_live h
        (fun r hr => ⟨c,ha.1.1,by simpa [Moves, eq_comm] using hr⟩) hs1
      -- the thread is at the end of kernel_sleep when it enters EXITED
      have hexited : m1.cc.pc (m.sched.currentThread c) = .exited := by
        unfold Machine.steps at hs1
        split at hs1
        · obtain ⟨cc,hcc,rfl⟩ := Option.map_eq_some_iff.mp hs1
          simp only [CC.exec, ha.2, CC.runThread, if_true, Option.some.injEq] at hcc
          subst hcc
          simp [CC.State.goto]
        · cases hs1
      have hen : Enabled m1.sched (.sleep c .EXITED none systemClock) := hsame ▸ ha.1
      refine ⟨sections_live hl hen (fun t ht => ?_) hs2,?_⟩
      · rw [hsame] at ht
        rw [← hexited, Option.some.inj ht]
      · have := hsections hs2
        rw [hsame, hrel] at this
        exact ⟨ha.1,this⟩
    · cases hn

theorem reachable_live (hr : (machine κ τ γ μ).Reachable m) : Live m := by
  refine (machine κ τ γ μ).invariant Live ?_ ?_ hr
  · rintro m rfl
    refine ⟨⟨[],[],boot_inv⟩,⟨_,CC.boot_inv⟩,fun _ _ => rfl,fun _ _ => Or.inl rfl,?_,fun _ => rfl,
      rfl⟩
    intro t ht
    have := ht.allocated
    simp [boot] at this
  · intro m a m' h hs
    exact (next_live h hs).1

structure Dead (s : State κ τ) (t : τ) : Prop where
  exited : t∈s.threads → (s.tcb (.normal t)).state = .EXITED
  selected : ∀ c, ¬Selects s c (.normal t)
  running : ∀ c, ¬(s.pc c = .running ∧ s.currentThread c = .normal t)

omit [DecidableEq κ] [DecidableEq τ] in
theorem Exited.dead {s : State κ τ} (hx : Exited s t) (h : Cores s) : Dead s t := by
  obtain ⟨c,n,hd⟩ := hx.departs h
  exact ⟨fun _ => hx.state,fun c' => (hd.not_selects h c').1,fun c' => (hd.not_selects h c').2⟩

omit [DecidableEq κ] [DecidableEq τ] in
theorem dead_of_gone {s : State κ τ} (h : Cores s) (ht : t∉s.threads) : Dead s t := by
  refine ⟨fun hm => absurd hm ht,fun c hc => ht (h.held c t hc.holds),?_⟩
  rintro c ⟨hpc,hcur⟩
  exact ht (h.held c t (by simp [Holds, hpc, hcur]))

omit [DecidableEq κ] [DecidableEq τ] in
theorem exitedBy_ne {s : State κ τ} {a : Label κ τ} (h : Cores s) (ha : Enabled s a)
    (hx : (s.tcb (.normal t)).state = .EXITED) : exitedBy s a≠some (.normal t) := by
  intro he
  cases a with
  | sleep c state msec systemClock =>
    cases state with
    | EXITED =>
      have hcore := h.core c
      simp only [CoreOk, ha.1, Option.some.inj he] at hcore
      simp [hx] at hcore
    | _ => cases he
  | _ => cases he

theorem next_departs {a : Action κ τ γ μ} {c : κ} {n : Nat} (h : Live m) (hn : m.next a = some m')
    (hx : Exited m.sched t) (hd : Departs m.sched c t n) :
    (Exited m'.sched t ∧ Departs m'.sched c t (if a.core = some c then n-1 else n) ∧
      m'.released.count t = m.released.count t) ∨
    (t∉m'.sched.threads ∧ m'.released.count t = m.released.count t+1) := by
  obtain ⟨hl,hf⟩ := next_live h hn
  obtain ⟨q,tl,hinv⟩ := h.sched
  obtain ⟨q',tl',hinv'⟩ := hl.sched
  cases hlab : a.label with
  | none =>
    obtain ⟨hs,hr⟩ : m'.sched = m.sched ∧ m'.released = m.released := by rwa [hlab] at hf
    left
    rw [hs, hr, Action.core, hlab]
    exact ⟨hx,by simpa using hd,rfl⟩
  | some b =>
    obtain ⟨hb,hexec,hr⟩ : Enabled m.sched b ∧ exec m.sched b = some m'.sched ∧
      m'.released = m.released++(releasedBy m.sched b).toList := by rwa [hlab] at hf
    have hthr := exec_threads hexec
    have hcore : a.core = b.core := by rw [Action.core, hlab]; rfl
    by_cases hrel : releasedBy m.sched b = some t
    · right
      refine ⟨?_,by simp [hr, hrel]⟩
      simp only [hthr, threadsAfter, hrel]
      exact fun hm => (hinv.nodup.mem_erase_iff.mp hm).1 rfl
    · left
      have hexit := exitedBy_ne hinv.toCores hb hx.state
      refine ⟨⟨?_,(exec_exited hinv.toCores hb hexec hx.allocated hexit).mpr hx.state⟩,?_,?_⟩
      · rw [hthr]
        exact mem_threadsAfter hx.allocated hrel
      · rw [hcore]
        exact (exec_departs hinv.toCores hinv' hb hexec hx.state hd hrel).1
      · rw [hr, List.count_append]
        cases hrb : releasedBy m.sched b with
        | none => simp
        | some u =>
          have hne : u≠t := fun he => hrel (by rw [hrb, he])
          simp [hne]

/-- A released thread stays away until its address is used again. -/
theorem next_gone {a : Action κ τ γ μ} (h : Live m) (hn : m.next a = some m')
    (ht : t∉m.sched.threads) (ha : a≠.sched (.spawn t)) :
    t∉m'.sched.threads ∧ m'.released.count t = m.released.count t := by
  obtain ⟨hl,hf⟩ := next_live h hn
  obtain ⟨q,tl,hinv⟩ := h.sched
  cases hlab : a.label with
  | none =>
    obtain ⟨hs,hr⟩ : m'.sched = m.sched ∧ m'.released = m.released := by rwa [hlab] at hf
    rw [hs, hr]
    exact ⟨ht,rfl⟩
  | some b =>
    obtain ⟨hb,hexec,hr⟩ : Enabled m.sched b ∧ exec m.sched b = some m'.sched ∧
      m'.released = m.released++(releasedBy m.sched b).toList := by rwa [hlab] at hf
    have hspawn : b.spawns≠some t := by
      intro hsp
      obtain rfl := spawns_eq hsp
      cases a <;> simp_all [Action.label]
    rw [exec_threads hexec, hr, List.count_append]
    refine ⟨not_mem_threadsAfter ht hspawn,?_⟩
    cases hrb : releasedBy m.sched b with
    | none => simp
    | some u =>
      have hne : u≠t := by
        rintro rfl
        exact ht (releasedBy_mem hinv.toCores hb hrb)
      simp [hne]

theorem run_gone (as : List (Action κ τ γ μ)) (h : Live m)
    (hrun : (machine κ τ γ μ).run m as = some m')
    (ht : t∉m.sched.threads) (has : ∀ a∈as, a≠.sched (.spawn t)) :
    Live m' ∧ t∉m'.sched.threads ∧ m'.released.count t = m.released.count t := by
  induction as generalizing m with
  | nil =>
    cases hrun
    exact ⟨h,ht,rfl⟩
  | cons a as ih =>
    obtain ⟨m1,hn,hrun⟩ := Option.bind_eq_some_iff.mp hrun
    obtain ⟨ht1,hc1⟩ := next_gone h hn ht (has a (by simp))
    rw [← hc1]
    exact ih (next_live h hn).1 hrun ht1 fun b hb => has b (by simp [hb])

theorem run_departs {c : κ} {n : Nat} (as : List (Action κ τ γ μ)) (h : Live m)
    (hrun : (machine κ τ γ μ).run m as = some m') (hx : Exited m.sched t)
    (hd : Departs m.sched c t n) (has : ∀ a∈as, a≠.sched (.spawn t)) :
    Live m' ∧ ((Exited m'.sched t ∧ m'.released.count t = m.released.count t ∧
        as.countP (fun a => decide (a.core = some c))<n) ∨
      (t∉m'.sched.threads ∧ m'.released.count t = m.released.count t+1)) := by
  induction as generalizing m n with
  | nil =>
    cases hrun
    exact ⟨h,Or.inl ⟨hx,rfl,hd.pos⟩⟩
  | cons a as ih =>
    obtain ⟨m1,hn,hrun⟩ := Option.bind_eq_some_iff.mp hrun
    have has' : ∀ b∈as, b≠.sched (.spawn t) := fun b hb => has b (by simp [hb])
    have hl := (next_live h hn).1
    rcases next_departs h hn hx hd with ⟨hx1,hd1,hc1⟩ | ⟨hg,hc1⟩
    · obtain ⟨hl',hcase⟩ := ih hl hrun hx1 hd1 has'
      refine ⟨hl',?_⟩
      rw [← hc1]
      refine hcase.imp_left fun ⟨hx2,hc2,hlt⟩ => ⟨hx2,hc2,?_⟩
      have := hd1.pos
      rw [List.countP_cons]
      by_cases hcore : a.core = some c
      · simp only [hcore, decide_true, if_true] at hlt this ⊢
        omega
      · simpa [hcore] using hlt
    · obtain ⟨hl',hg',hc'⟩ := run_gone as hl hrun hg has'
      exact ⟨hl',Or.inr ⟨hg',by rw [hc', hc1]⟩⟩

/-- t, which has exited, is the current thread of no core and is linked in none of the
lists and rings, and the gain of core c ends the switch away from it. -/
structure Detached (m : Machine κ τ γ μ) (t : τ) (c : κ) : Prop where
  exited : Exited m.sched t
  switched : m.sched.pc c = .switched ∧ (m.sched.tcb (m.sched.currentThread c)).prev = some
    (.normal t)
  current : ∀ c', m.sched.currentThread c'≠.normal t
  lists : ∃ q tl, Placed m.sched q tl ∧ t∉q ∧ t∉tl
  single : m.sched.heap.next (node t) = node t ∧ m.sched.heap.prev (node t) = node t
  rings : ∃ L : CC.CondVar γ → List CC.WaiterRef, (∀ cv, CC.IsRing m.cc cv (L cv)) ∧
    ∀ cv, ∀ w∈L cv, ∃ r, m.cc.waiters w = some r ∧ r.thread≠.normal t

theorem Live.detached {c : κ} (h : Live m) (ha : m.sched.pc c = .switched)
    (hr : releasedBy m.sched (.gain c) = some t) : Detached m t c := by
  obtain ⟨q,tl,hinv⟩ := h.sched
  obtain ⟨L,hL⟩ := h.cc
  have hmem := releasedBy_mem (a := .gain c) hinv.toCores ha hr
  obtain ⟨c',he,hne,hprev,hst⟩ := releasedBy_eq.mp hr
  cases he
  have hq : t∉q := by
    intro hm
    have := ((hinv.queue t).mp hm).2.1
    simp [hst] at this
  have htl : t∉tl := by
    intro hm
    have := ((hinv.timer t).mp hm).2.1
    simp [hst] at this
  have hplaced := hinv.placed
  refine ⟨⟨hmem,hst⟩,⟨ha,hprev⟩,?_,⟨q,tl,hplaced,hq,htl⟩,hplaced.single t hmem hq htl,
    ⟨L,fun cv => hL.rings.isRing cv,?_⟩⟩
  · intro c' hcur
    have hon : OnScheduler m.sched c' := by
      constructor
      · intro hpc
        simp [h.rest c' (Or.inl hpc)] at hcur
      · intro hpc
        simp [h.rest c' (Or.inr hpc)] at hcur
    have hholds : Holds m.sched c (.normal t) := by simp [Holds, ha, hprev]
    obtain rfl := hinv.exclusive c c' _ hholds (hcur ▸ hon.holds_current)
    exact hne hcur
  · intro cv w hw
    obtain ⟨r,p,f,hr,hpc,-⟩ := hL.inRing cv w hw
    refine ⟨r,hr,fun he => ?_⟩
    rw [he, h.exited t ⟨hmem,hst⟩] at hpc
    cases hpc

/-- active_threads counts the threads that were created and not released. A thread that
has exited is never selected and never runs again; it is released once, three sections
of its core after it exited, by the gain that ends the switch away from it, while it is
current on no core and linked nowhere. -/
theorem thread_lifetime (hr : (machine κ τ γ μ).Reachable m) :
    (m.sched.activeThreads = (m.spawned.length : Int)-m.released.length ∧ 0 ≤ m.sched.activeThreads ∧
      ∀ t, m.spawned.count t = m.released.count t+if t∈m.sched.threads then 1 else 0) ∧
    (∀ t, Exited m.sched t → ∃ c, ∀ as m', (machine κ τ γ μ).run m as = some m' →
      (∀ a∈as, a≠.sched (.spawn t)) → Dead m'.sched t ∧
        m'.released.count t = m.released.count t+(if t∈m'.sched.threads then 0 else 1) ∧
        (3≤as.countP (fun a => decide (a.core = some c)) → t∉m'.sched.threads)) ∧
    ∀ a m', m.next a = some m' → m'.released = m.released ∨
      ∃ t c, a = .sched (.gain c) ∧ m'.released = m.released++[t] ∧ Detached m t c := by
  have h := reachable_live hr
  obtain ⟨q,tl,hinv⟩ := h.sched
  refine ⟨⟨?_,?_,fun t => ?_⟩,fun t hx => ?_,fun a m' hn => ?_⟩
  · have := h.total
    have := hinv.active
    omega
  · have := hinv.active
    omega
  · rw [h.counts t, hinv.nodup.count]
  · obtain ⟨c,n,hd⟩ := hx.departs hinv.toCores
    refine ⟨c,fun as m' hrun has => ?_⟩
    obtain ⟨h',hcase⟩ := run_departs as h hrun hx hd has
    obtain ⟨q',tl',hinv'⟩ := h'.sched
    rcases hcase with ⟨hx',hc,hlt⟩ | ⟨hg,hc⟩
    · refine ⟨hx'.dead hinv'.toCores,by simp [hx'.allocated, hc],fun hle => ?_⟩
      have := hd.le
      omega
    · exact ⟨dead_of_gone hinv'.toCores hg,by simp [hg, hc],fun _ => hg⟩
  · obtain ⟨-,hf⟩ := next_live h hn
    cases hlab : a.label with
    | none =>
      left
      rw [hlab] at hf
      exact hf.2
    | some b =>
      rw [hlab] at hf
      obtain ⟨hb,-,hrel⟩ := hf
      cases hrb : releasedBy m.sched b with
      | none =>
        left
        simpa [hrb] using hrel
      | some t =>
        right
        obtain ⟨c,rfl,-⟩ := releasedBy_eq.mp hrb
        refine ⟨t,c,?_,by simpa [hrb] using hrel,h.detached hb hrb⟩
        cases a <;> simp_all [Action.label]

def exitRun : List (Action (Fin 2) (Fin 2) Unit Unit) :=
  [.sched (.enter 0), .sched (.spawn 0), .sched (.wakeup 0), .sched (.yield 0 1), .sched (.swap 0),
    .sched (.gain 0), .call 0 .kernelLock, .run 0, .run 0, .run 0, .call 0 (.kernelSleep true),
    .run 0, .run 0, .run 0, .run 0, .run 0, .exit 0 2]

def leaveRun : List (Action (Fin 2) (Fin 2) Unit Unit) :=
  [.sched (.yield 0 3), .sched (.swap 0), .sched (.gain 0)]

theorem exitRun_released : ∃ m m', (machine (Fin 2) (Fin 2) Unit Unit).Reachable m ∧ Exited m.sched 0 ∧
    (machine (Fin 2) (Fin 2) Unit Unit).run m leaveRun = some m' ∧ Dead m'.sched 0 ∧
    m'.released.count 0 = m.released.count 0+(if 0∈m'.sched.threads then 0 else 1) := by
  obtain ⟨m,hm,⟨hmem,hst⟩,hrun⟩ := (machine (Fin 2) (Fin 2) Unit Unit).reaches rfl exitRun
    (fun m => (0∈m.sched.threads ∧ (m.sched.tcb (.normal 0)).state = .EXITED) ∧
      ((machine (Fin 2) (Fin 2) Unit Unit).run m leaveRun).isSome = true) (by decide +kernel)
  obtain ⟨m',hm'⟩ := Option.isSome_iff_exists.mp hrun
  obtain ⟨c,hc⟩ := (thread_lifetime hm).2.1 0 ⟨hmem,hst⟩
  obtain ⟨hdead,hcount,-⟩ := hc leaveRun m' hm' (by simp [leaveRun])
  exact ⟨m,m',hm,⟨hmem,hst⟩,hm',hdead,hcount⟩

end TinyOS.Sched
