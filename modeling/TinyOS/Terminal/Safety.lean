import TinyOS.Terminal.Model

/-! No byte of a terminal is lost, given twice or out of order: a call of Read takes its
bytes while it holds the kernel, and gives it up with none or with all of them returned. -/
namespace TinyOS.Terminal
open Transition
variable {τ π γ μ β : Type*}

def bytesLeft [DecidableEq π] (left : List (Left π β)) (p : π) : List β :=
  (left.filter fun x => decide (x.port = p)).flatMap Left.bytes

def taken (input : π → Nat → β) (p : π) (n : Nat) : List β := (List.range n).map (input p)

theorem taken_succ (input : π → Nat → β) (p : π) (n : Nat) :
    taken input p (n+1) = taken input p n++[input p n] := by
  simp [taken, List.range_succ]

theorem bytesLeft_append [DecidableEq π] (l : List (Left π β)) (x : Left π β) (p : π) :
    bytesLeft (l++[x]) p = bytesLeft l p++if x.port = p then x.bytes else [] := by
  by_cases hx : x.port = p <;> simp [bytesLeft, List.filter_append, hx]

/-- A call has bytes only while it holds the kernel, and then it is at the loop, behind it
or about to unlock. -/
inductive ReadOk (pc : CC.Pc (Cv π γ) μ) (inside : Bool) (r : Read π β) : Prop where
  | entering (hpc : r.pc = .loop) (hbuf : r.buf = []) (h : pc.entering = true) (out : inside = false)
  | entered (hpc : r.pc = .loop) (hbuf : r.buf = []) (h : ∃ ret, pc = .leave ret)
      (inn : inside = true)
  | polls (hpc : r.pc = .loop ∨ r.pc = .ret) (h : pc = .user) (inn : inside = true)
  | waits (hpc : r.pc = .loop) (hbuf : r.buf = [])
      (h : ∃ cv timed, pc = .giveUp (.kernelWait cv timed) ∨ pc = .incr (.kernelWait cv timed))
      (inn : inside = true)
  | unlocks (hpc : r.pc = .unlock) (h : pc = .giveUp .kernelUnlock ∨ pc = .incr .kernelUnlock)
      (inn : inside = true)

structure Sized (n : Nat) (r : Read π β) : Prop where
  le : r.buf.length ≤ r.size
  pos : r.pc≠.loop → 0 < r.size → 0 < r.buf.length
  bound : r.buf.length < n

structure Returned (n : Nat) (x : Left π β) : Prop where
  ret : x.ret = Kernel.toInt x.bytes.length
  le : x.bytes.length ≤ x.size
  pos : 0 < x.size → 0 < x.bytes.length
  bound : x.bytes.length < n

variable [DecidableEq τ] [DecidableEq π] [DecidableEq γ] [DecidableEq μ]

structure Good (input : π → Nat → β) (n : Nat) (m : State τ π γ μ β) : Prop where
  cc : ∃ L, CC.Inv m.cc L
  read : ∀ t r, m.reading t = some r → ReadOk (m.cc.pc t) (m.cc.inside t) r
  sized : ∀ t r, m.reading t = some r → Sized n r
  returned : ∀ x∈m.left, Returned n x
  inside : ∀ t r, m.reading t = some r → m.cc.inside t = true →
    bytesLeft m.left r.port++r.buf = taken input r.port (m.pos r.port)
  outside : ∀ p, (∀ t r, m.reading t = some r → m.cc.inside t = true → r.port≠p) →
    bytesLeft m.left p = taken input p (m.pos p)

variable {input : π → Nat → β} {n : Nat} {m m' : State τ π γ μ β} {t : τ} {r : Read π β}

omit [DecidableEq τ] in
theorem Good.others (h : Good input n m) (hcc : ∃ L, CC.Inv m'.cc L)
    (hreading : m'.reading = m.reading)
    (hpos : m'.pos = m.pos) (hleft : m'.left = m.left)
    (hsame : ∀ u r, m.reading u = some r → m'.cc.pc u = m.cc.pc u ∧ m'.cc.inside u = m.cc.inside
    u) :
    Good input n m' := by
  refine ⟨hcc,fun u r hr => ?_,fun u r hr => ?_,hleft ▸ h.returned,fun u r hr hin => ?_,
    fun p hp => ?_⟩
  · rw [hreading] at hr
    rw [(hsame u r hr).1, (hsame u r hr).2]
    exact h.read u r hr
  · rw [hreading] at hr
    exact h.sized u r hr
  · rw [hreading] at hr
    rw [(hsame u r hr).2] at hin
    rw [hpos, hleft]
    exact h.inside u r hr hin
  · rw [hpos, hleft]
    refine h.outside p fun u r hr hin => hp u r (hreading ▸ hr) ?_
    rw [(hsame u r hr).2]
    exact hin

theorem Good.update (h : Good input n m) (hcc : ∃ L, CC.Inv m'.cc L)
    (hreading : m'.reading = Function.update m.reading t (some r)) (hpos : m'.pos = m.pos)
    (hleft : m'.left = m.left) (hport : ∀ r', m.reading t = some r' → r'.port = r.port)
    (hsame : ∀ u, u≠t → m'.cc.pc u = m.cc.pc u ∧ m'.cc.inside u = m.cc.inside u)
    (hok : ReadOk (m'.cc.pc t) (m'.cc.inside t) r) (hsized : Sized n r)
    (hin : m'.cc.inside t = true → bytesLeft m.left r.port++r.buf = taken input r.port
    (m.pos r.port))
    (hout : m'.cc.inside t = false → ∀ r', m.reading t = some r' → m.cc.inside t = true →
      bytesLeft m.left r.port = taken input r.port (m.pos r.port)) : Good input n m' := by
  have hget : ∀ u r', m'.reading u = some r' → u = t ∧ r' = r ∨ u≠t ∧ m.reading u = some r' := by
    intro u r' hr
    by_cases hu : u = t
    · exact Or.inl ⟨hu,by simpa [hreading, hu, eq_comm] using hr⟩
    · exact Or.inr ⟨hu,by simpa [hreading, hu] using hr⟩
  refine ⟨hcc,fun u r' hr => ?_,fun u r' hr => ?_,hleft ▸ h.returned,fun u r' hr hu => ?_,
    fun p hp => ?_⟩
  · rcases hget u r' hr with ⟨rfl,rfl⟩ | ⟨hu,hr⟩
    · exact hok
    · rw [(hsame u hu).1, (hsame u hu).2]
      exact h.read u r' hr
  · rcases hget u r' hr with ⟨rfl,rfl⟩ | ⟨hu,hr⟩
    · exact hsized
    · exact h.sized u r' hr
  · rw [hpos, hleft]
    rcases hget u r' hr with ⟨rfl,rfl⟩ | ⟨hne,hr⟩
    · exact hin hu
    · rw [(hsame u hne).2] at hu
      exact h.inside u r' hr hu
  · rw [hpos, hleft]
    -- a reader on p that held the kernel before and does not hold it now is t
    by_cases ht : ∃ r', m.reading t = some r' ∧ m.cc.inside t = true ∧ r'.port = p
    · obtain ⟨r',hr,hu,hrp⟩ := ht
      have hrp : r.port = p := (hport r' hr).symm.trans hrp
      cases hi : m'.cc.inside t with
      | true => exact absurd hrp (hp t r (by simp [hreading]) hi)
      | false =>
        rw [← hrp]
        exact hout hi r' hr hu
    · refine h.outside p fun u r' hr hu hrp => ?_
      by_cases hut : u = t
      · subst hut
        exact ht ⟨r',hr,hu,hrp⟩
      · exact hp u r' (by simpa [hreading, hut] using hr) (by rw [(hsame u hut).2]; exact hu) hrp

omit [DecidableEq τ] in
theorem Good.alone {u : τ} (h : Good input n m) (ht : m.cc.inside t = true)
    (hu : m.cc.inside u = true) : u = t := by
  obtain ⟨L,hinv⟩ := h.cc
  rcases hinv.sem with ⟨-,hno⟩ | ⟨-,v,-,huniq⟩
  · rw [hno t] at ht
    cases ht
  · exact (huniq u hu).trans (huniq t ht).symm

omit [DecidableEq τ] in
theorem Good.free (h : Good input n m) (hs : 0 < m.cc.kernelSem) (u : τ) :
    m.cc.inside u = false := by
  obtain ⟨L,hinv⟩ := h.cc
  rcases hinv.sem with ⟨-,hno⟩ | ⟨h0,-⟩
  · exact hno u
  · omega

structure Stepped (m m' : State τ π γ μ β) (a : CC.Label τ (Cv π γ) μ) : Prop where
  enabled : CC.Enabled m.cc a
  exec : CC.exec m.cc a = some m'.cc
  reading : m'.reading = m.reading
  pos : m'.pos = m.pos
  left : m'.left = m.left

theorem Good.steps {a : CC.Label τ (Cv π γ) μ} (h : Good input n m) (hs : m.steps a = some m') :
    (∃ L, CC.Inv m'.cc L) ∧ Stepped m m' a := by
  unfold State.steps at hs
  split at hs
  · rename_i ha
    obtain ⟨cc,hcc,rfl⟩ := Option.map_eq_some_iff.mp hs
    obtain ⟨L,hinv⟩ := h.cc
    obtain ⟨s',L',hs',hinv'⟩ := CC.exec_inv hinv ha
    rw [hcc] at hs'
    cases hs'
    exact ⟨⟨L',hinv'⟩,ha,hcc,rfl,rfl,rfl⟩
  · cases hs

theorem Stepped.run {u : τ} (h : Stepped m m' (.run t)) (hu : u≠t) :
    m'.cc.pc u = m.cc.pc u ∧ m'.cc.inside u = m.cc.inside u :=
  ⟨CC.runThread_pc h.exec hu,CC.runThread_inside h.exec hu⟩

theorem Stepped.call {c : CC.Call (Cv π γ) μ} (h : Stepped m m' (.call t c)) :
    m'.cc = CC.call m.cc t c := (Option.some.inj h.exec).symm

theorem leave_good (h : Good input n m) (hcc : ∃ L, CC.Inv m'.cc L) (hst : Stepped m m' (.run t))
    (hr : m.reading t = some r) (hpc : r.pc = .unlock) (inn : m.cc.inside t = true) :
    Good input n (m'.leave t r) := by
  have hget : ∀ u r', (m'.leave t r).reading u = some r' → u≠t ∧ m.reading u = some r' := by
    intro u r' hu
    have hne : u≠t := by
      rintro rfl
      simp [State.leave, State.setRead] at hu
    exact ⟨hne,by simpa [State.leave, State.setRead, hne, hst.reading] using hu⟩
  refine ⟨hcc,fun u r' hu => ?_,fun u r' hu => ?_,?_,fun u r' hu hi => ?_,fun p _ => ?_⟩
  · obtain ⟨hne,hu⟩ := hget u r' hu
    have hsame := hst.run hne
    simp only [State.leave, State.setRead, hsame]
    exact h.read u r' hu
  · exact h.sized u r' (hget u r' hu).2
  · have hsz := h.sized t r hr
    have hx : Returned n ⟨r.port,r.size,r.buf,Kernel.toInt r.buf.length⟩ :=
      ⟨by dsimp only,hsz.le,hsz.pos (by simp [hpc]),hsz.bound⟩
    simp only [State.leave, hst.left, List.forall_mem_append]
    exact ⟨h.returned,List.forall_mem_singleton.mpr hx⟩
  · obtain ⟨hne,-⟩ := hget u r' hu
    have hi : m.cc.inside u = true := by rw [← (hst.run hne).2]; exact hi
    exact absurd (h.alone inn hi) hne
  · simp only [State.leave, State.setRead, hst.left, hst.pos]
    rw [bytesLeft_append]
    by_cases hp : r.port = p
    · subst hp
      simpa using h.inside t r hr inn
    · simp only [hp, if_false, List.append_nil]
      refine h.outside p fun u r' hu hi => ?_
      obtain rfl := h.alone inn hi
      rw [hr] at hu
      cases hu
      exact hp

theorem run_read_good (h : Good input n m) (hr : m.reading t = some r) (hs : run m t = some m') :
    Good input n m' := by
  obtain ⟨m1,hm1,hm⟩ := Option.map_eq_some_iff.mp hs
  obtain ⟨hcc,hst⟩ := h.steps hm1
  have hexec : CC.runThread m.cc t (m.cc.pc t) = some m1.cc := hst.exec
  have hkeep : m1.reading = Function.update m.reading t (some r) := by
    rw [hst.reading, ← hr, Function.update_eq_self]
  have hport : ∀ r', m.reading t = some r' → r'.port = r.port := fun r' hr' => by
    rw [hr] at hr'
    cases hr'
    rfl
  have hsz := h.sized t r hr
  cases h.read t r hr with
  | entering hpc hbuf hent out =>
    obtain rfl : m1 = m' := by
      cases hp : m.cc.pc t <;> simp_all [CC.Pc.entering]
    rcases CC.runThread_entering hexec hent with ⟨hent',hin⟩ | ⟨hleave,hsem,hin⟩
    · have hout : m1.cc.inside t = false := by rw [hin, out]
      refine h.update hcc hkeep hst.pos hst.left hport (fun u hu => hst.run hu)
        (.entering hpc hbuf hent' hout)
        hsz (fun hi => ?_) fun _ r' _ hi => ?_
      · rw [hout] at hi
        cases hi
      · rw [out] at hi
        cases hi
    · -- the kernel was free: all bytes taken from the port have been returned
      have hi : m1.cc.inside t = true := by simp [hin]
      refine h.update hcc hkeep hst.pos hst.left hport (fun u hu => hst.run hu)
        (.entered hpc hbuf hleave hi)
        hsz (fun _ => ?_) fun hi' => ?_
      · rw [hbuf, List.append_nil]
        refine h.outside r.port fun u r' _ hu => ?_
        rw [h.free hsem u] at hu
        cases hu
      · rw [hi] at hi'
        cases hi'
  | entered hpc hbuf hleave inn =>
    obtain ⟨ret,hleave⟩ := hleave
    obtain rfl : m1 = m' := by simpa [hleave] using hm
    rw [hleave] at hexec
    have he := Option.some.inj hexec
    have hi : m1.cc.inside t = true := by rw [← he]; exact inn
    have hu : m1.cc.pc t = .user := by simp [← he, CC.State.goto]
    refine h.update hcc hkeep hst.pos hst.left hport (fun u hu => hst.run hu)
      (.polls (Or.inl hpc) hu hi)
      hsz (fun _ => h.inside t r hr inn) fun hi' => ?_
    rw [hi] at hi'
    cases hi'
  | polls hpc huser inn =>
    rw [huser] at hexec
    cases hexec
  | waits hpc hbuf hw inn =>
    obtain ⟨cv,timed,hw⟩ := hw
    obtain rfl : m1 = m' := by
      rcases hw with hw | hw <;> simpa [hw] using hm
    rcases hw with hw | hw
    all_goals
      rw [hw] at hexec
      have he := Option.some.inj hexec
    · have hi : m1.cc.inside t = true := by rw [← he]; exact inn
      have hp : m1.cc.pc t = .incr (.kernelWait cv timed) := by simp [← he, CC.State.goto]
      refine h.update hcc hkeep hst.pos hst.left hport (fun u hu => hst.run hu)
        (.waits hpc hbuf ⟨cv,timed,Or.inr hp⟩ hi) hsz (fun _ => h.inside t r hr inn) fun hi' => ?_
      rw [hi] at hi'
      cases hi'
    · -- the kernel is given up with no byte taken
      have hi : m1.cc.inside t = false := by simp [← he, CC.beginSignal, CC.State.goto]
      have hp : (m1.cc.pc t).entering = true := by
        simp [← he, CC.beginSignal, CC.State.goto, CC.Pc.entering]
      refine h.update hcc hkeep hst.pos hst.left hport (fun u hu => hst.run hu)
        (.entering hpc hbuf hp hi)
        hsz (fun hi' => ?_) fun _ _ _ _ => ?_
      · rw [hi] at hi'
        cases hi'
      · simpa [hbuf] using h.inside t r hr inn
  | unlocks hpc hu inn =>
    rcases hu with hu | hu
    · obtain rfl : m1 = m' := by simpa [hu] using hm
      rw [hu] at hexec
      have he := Option.some.inj hexec
      have hi : m1.cc.inside t = true := by rw [← he]; exact inn
      have hp : m1.cc.pc t = .incr .kernelUnlock := by simp [← he, CC.State.goto]
      refine h.update hcc hkeep hst.pos hst.left hport (fun u hu => hst.run hu)
        (.unlocks hpc (Or.inr hp) hi)
        hsz (fun _ => h.inside t r hr inn) fun hi' => ?_
      rw [hi] at hi'
      cases hi'
    · obtain rfl : m1.leave t r = m' := by simpa [hu, hr] using hm
      exact leave_good h hcc hst hr hpc inn

theorem run_good (h : Good input n m) (hs : run m t = some m') : Good input n m' := by
  cases hr : m.reading t with
  | some r => exact run_read_good h hr hs
  | none =>
    obtain ⟨m1,hm1,hm⟩ := Option.map_eq_some_iff.mp hs
    obtain rfl : m1 = m' := by
      cases hp : m.cc.pc t <;> simp_all
    obtain ⟨hcc,hst⟩ := h.steps hm1
    refine h.others hcc hst.reading hst.pos hst.left fun u r hu => hst.run ?_
    rintro rfl
    rw [hr] at hu
    cases hu

theorem call_good {c : CC.Call (Cv π γ) μ} (h : Good input n m) (hr : m.reading t = none)
    (hs : m.steps (.call t c) = some m') : Good input n m' := by
  obtain ⟨hcc,hst⟩ := h.steps hs
  refine h.others hcc hst.reading hst.pos hst.left fun u r hu => ?_
  have hne : u≠t := by
    rintro rfl
    rw [hr] at hu
    cases hu
  rw [hst.call]
  exact ⟨CC.call_pc c hne,by rw [CC.call_inside]⟩

theorem expire_good (h : Good input n m) (hs : m.steps (.expire t) = some m') :
    Good input n m' := by
  obtain ⟨hcc,hst⟩ := h.steps hs
  refine h.others hcc hst.reading hst.pos hst.left fun u r _ => ?_
  have he : (CC.wakeup m.cc t .timeout).1 = m'.cc := Option.some.inj hst.exec
  rw [← he]
  unfold CC.wakeup
  split <;> exact ⟨rfl,rfl⟩

theorem read_good {p : π} {size : Nat} (hn : 0 < n) (h : Good input n m) (hr : m.reading t = none)
    (hin : m.cc.inside t = false) (hs : m.steps (.call t .kernelLock) = some m') :
    Good input n (m'.setRead t (some ⟨p,size,[],.loop⟩)) := by
  obtain ⟨hcc,hst⟩ := h.steps hs
  have hout : m'.cc.inside t = false := by rw [hst.call, CC.call_inside, hin]
  have hent : (m'.cc.pc t).entering = true := by
    simp [hst.call, CC.call, CC.State.goto, CC.Pc.entering]
  refine h.update hcc (by rw [State.setRead, hst.reading]) hst.pos hst.left ?_ (fun u hu => ?_)
    (.entering rfl rfl hent hout) ⟨Nat.zero_le _,by simp,by simpa using hn⟩ (fun hi => ?_)
      fun _ r' hr' => ?_
  · intro r' hr'
    rw [hr] at hr'
    cases hr'
  · simp only [State.setRead, hst.call]
    exact ⟨CC.call_pc _ hu,by rw [CC.call_inside]⟩
  · have hi : m'.cc.inside t = true := hi
    rw [hout] at hi
    cases hi
  · rw [hr] at hr'
    cases hr'

omit [DecidableEq τ] in
theorem Good.holds (h : Good input n m) (hr : m.reading t = some r) (hpc : m.cc.pc t = .user) :
    m.cc.inside t = true := by
  have hok := h.read t r hr
  rw [hpc] at hok
  cases hok with
  | entering _ _ hent _ => cases hent
  | entered _ _ hl inn => exact inn
  | polls _ _ inn => exact inn
  | waits _ _ hw inn => exact inn
  | unlocks _ hu inn => exact inn

theorem byte_good (h : Good input n m) (hr : m.reading t = some r) (hloop : r.pc = .loop)
    (hpc : m.cc.pc t = .user) (hlt : r.buf.length < r.size) (hn : r.buf.length+1 < n) :
    Good input n (m.takeByte input t r) := by
  have inn := h.holds hr hpc
  have hget : ∀ u r', (m.takeByte input t r).reading u = some r' →
      u = t ∧ r' = { r with buf := r.buf++[input r.port (m.pos r.port)] } ∨ u≠t ∧ m.reading u = some
        r' := by
    intro u r' hu
    by_cases hut : u = t
    · exact Or.inl ⟨hut,by simpa [State.takeByte, State.setRead, hut, eq_comm] using hu⟩
    · exact Or.inr ⟨hut,by simpa [State.takeByte, State.setRead, hut] using hu⟩
  refine ⟨h.cc,fun u r' hu => ?_,fun u r' hu => ?_,h.returned,fun u r' hu hi => ?_,fun p hp => ?_⟩
  · rcases hget u r' hu with ⟨rfl,rfl⟩ | ⟨hne,hu⟩
    · exact .polls (Or.inl hloop) hpc inn
    · exact h.read u r' hu
  · rcases hget u r' hu with ⟨rfl,rfl⟩ | ⟨hne,hu⟩
    · refine ⟨?_,fun hne => absurd hloop hne,by simpa using hn⟩
      simp only [List.length_append, List.length_singleton]
      omega
    · exact h.sized u r' hu
  · rcases hget u r' hu with ⟨rfl,rfl⟩ | ⟨hne,-⟩
    · simp only [State.takeByte, State.setRead, Function.update_self, taken_succ]
      rw [← h.inside u r hr inn, List.append_assoc]
    · exact absurd (h.alone inn hi) hne
  · have hne : p≠r.port := fun he => hp t { r with buf := r.buf++[input r.port (m.pos r.port)] }
      (by simp [State.takeByte, State.setRead]) inn he.symm
    simp only [State.takeByte, Function.update_of_ne hne]
    refine h.outside p fun u r' hu hi => ?_
    obtain rfl := h.alone inn hi
    rw [hr] at hu
    cases hu
    exact hne.symm

theorem keep_good {r' : Read π β} (h : Good input n m) (hr : m.reading t = some r)
    (inn : m.cc.inside t = true)
    (hcc : ∃ L, CC.Inv m'.cc L) (hreading : m'.reading = m.reading) (hpos : m'.pos = m.pos)
    (hleft : m'.left = m.left)
    (hsame : ∀ u, u≠t → m'.cc.pc u = m.cc.pc u ∧ m'.cc.inside u = m.cc.inside u)
    (hin : m'.cc.inside t = true) (hport : r'.port = r.port) (hbuf : r'.buf = r.buf)
    (hok : ReadOk (m'.cc.pc t) true r') (hsized : Sized n r') :
    Good input n (m'.setRead t (some r')) := by
  refine h.update hcc (by rw [State.setRead, hreading]) hpos hleft ?_ hsame (hin.symm ▸ hok) hsized
    (fun _ => ?_) fun hi => ?_
  · intro r'' hr''
    rw [hr] at hr''
    cases hr''
    exact hport.symm
  · rw [hport, hbuf]
    exact h.inside t r hr inn
  · have hi : m'.cc.inside t = false := hi
    rw [hin] at hi
    cases hi

theorem poll_good {valid : Bool} (h : Good input n m) (hr : m.reading t = some r)
    (hloop : r.pc = .loop)
    (hpc : m.cc.pc t = .user) (hn : valid = true → r.buf.length < r.size → r.buf.length+1 < n)
    (hs : serialRead input m t r valid = some m') : Good input n m' := by
  have inn := h.holds hr hpc
  have hsz := h.sized t r hr
  unfold serialRead at hs
  split at hs
  · rename_i hlt
    split at hs
    · rename_i hv
      cases hs
      exact byte_good h hr hloop hpc hlt (hn hv hlt)
    · split at hs
      · -- kernel_wait, with no byte taken
        rename_i hzero
        obtain ⟨hcc,hst⟩ := h.steps hs
        have hbuf : r.buf = [] := List.length_eq_zero_iff.mp hzero
        have hin : m'.cc.inside t = true := by rw [hst.call, CC.call_inside, inn]
        have hp : m'.cc.pc t = .giveUp (.kernelWait (.other (.rxReady r.port)) false) := by
          simp [hst.call, CC.call, CC.State.goto]
        have hk : Good input n (m'.setRead t (some r)) := by
          refine keep_good h hr inn hcc hst.reading hst.pos hst.left (fun u hu => ?_) hin rfl rfl
            (.waits hloop hbuf ⟨_,_,Or.inl hp⟩ rfl) hsz
          rw [hst.call]
          exact ⟨CC.call_pc _ hu,by rw [CC.call_inside]⟩
        rwa [State.setRead, ← hr, ← hst.reading, Function.update_eq_self] at hk
      · rename_i hpos
        cases hs
        exact keep_good h hr inn h.cc rfl rfl rfl (fun _ _ => ⟨rfl,rfl⟩) inn rfl rfl
          (.polls (Or.inr rfl) hpc rfl) ⟨hsz.le,fun _ _ => Nat.pos_of_ne_zero hpos,hsz.bound⟩
  · rename_i hge
    cases hs
    refine keep_good h hr inn h.cc rfl rfl rfl (fun _ _ => ⟨rfl,rfl⟩) inn rfl rfl
      (.polls (Or.inr rfl) hpc rfl) ⟨hsz.le,fun _ hpos => ?_,hsz.bound⟩
    exact Nat.lt_of_lt_of_le hpos (Nat.le_of_not_lt hge)

theorem unlock_good (h : Good input n m) (hr : m.reading t = some r) (hret : r.pc = .ret)
    (hs : m.steps (.call t .kernelUnlock) = some m') :
    Good input n (m'.setRead t (some { r with pc := .unlock })) := by
  obtain ⟨hcc,hst⟩ := h.steps hs
  have inn := h.holds hr hst.enabled.1
  have hsz := h.sized t r hr
  have hin : m'.cc.inside t = true := by rw [hst.call, CC.call_inside, inn]
  have hp : m'.cc.pc t = .giveUp .kernelUnlock := by simp [hst.call, CC.call, CC.State.goto]
  refine keep_good h hr inn hcc hst.reading hst.pos hst.left (fun u hu => ?_) hin rfl rfl
    (.unlocks rfl (Or.inl hp) rfl) ⟨hsz.le,fun _ => hsz.pos (by simp [hret]),hsz.bound⟩
  rw [hst.call]
  exact ⟨CC.call_pc _ hu,by rw [CC.call_inside]⟩

def Short (n : Nat) (m : State τ π γ μ β) : Label τ π γ μ → Prop
  | .poll t true => ∀ r∈m.reading t, r.buf.length < r.size → r.buf.length+1 < n
  | _ => True

theorem next_good {a : Label τ π γ μ} (hn : 0 < n) (h : Good input n m) (ha : Short n m a)
    (hs : next input m a = some m') : Good input n m' := by
  cases a with
  | call t c =>
    simp only [next] at hs
    split at hs
    · rename_i hr
      exact call_good h (by simpa using hr) hs
    · cases hs
  | run t => exact run_good h hs
  | expire t => exact expire_good h hs
  | read t port size =>
    simp only [next] at hs
    split at hs
    · rename_i hok
      obtain ⟨m1,hm1,rfl⟩ := Option.map_eq_some_iff.mp hs
      exact read_good hn h (by simpa using hok.1) hok.2.1 hm1
    · cases hs
  | poll t valid =>
    obtain ⟨r,hr,hs⟩ := Option.bind_eq_some_iff.mp hs
    split at hs
    · rename_i hok
      refine poll_good h hr hok.1 hok.2.1 (fun hv => ?_) hs
      subst hv
      exact ha r hr
    · cases hs
  | unlock t =>
    obtain ⟨r,hr,hs⟩ := Option.bind_eq_some_iff.mp hs
    split at hs
    · rename_i hret
      obtain ⟨m1,hm1,rfl⟩ := Option.map_eq_some_iff.mp hs
      exact unlock_good h hr hret hm1
    · cases hs

omit [DecidableEq τ] in
theorem boot_good : Good input n (boot : State τ π γ μ β) := by
  refine ⟨⟨_,CC.boot_inv⟩,?_,?_,?_,?_,?_⟩
  all_goals simp [boot, bytesLeft, taken]

instance (n : Nat) (m : State τ π γ μ β) (a : Label τ π γ μ) : Decidable (Short n m a) :=
  match a with
  | .poll t true => inferInstanceAs
      (Decidable (∀ r∈m.reading t, r.buf.length < r.size → r.buf.length+1 < n))
  | .poll _ false | .call _ _ | .run _ | .expire _ | .read _ _ _ | .unlock _ => inferInstanceAs
      (Decidable True)

theorem reachable_good (hn : 0 < n) (hr : ((system τ γ μ input).restrict (Short n)).Reachable m) :
    Good input n m := by
  refine System.invariant _ (Good input n) ?_ ?_ hr
  · rintro m rfl
    exact boot_good
  · intro m a m' h hs
    obtain ⟨ha,hs⟩ := System.restrict_next hs
    exact next_good hn h ha hs

omit [DecidableEq τ] in
/-- What has left is what was taken, up to the bytes of a call that holds the kernel. -/
theorem Good.in_order (h : Good input n m) (p : π) :
    bytesLeft m.left p <+: taken input p (m.pos p) ∧
      ((∀ t, m.cc.inside t = false) → bytesLeft m.left p = taken input p (m.pos p)) := by
  refine ⟨?_,fun hno => h.outside p fun u r _ hu => ?_⟩
  · by_cases hp : ∃ t r, m.reading t = some r ∧ m.cc.inside t = true ∧ r.port = p
    · obtain ⟨t,r,hr,hin,rfl⟩ := hp
      exact ⟨r.buf,h.inside t r hr hin⟩
    · rw [h.outside p fun t r hr hin hrp => hp ⟨t,r,hr,hin,hrp⟩]
  · rw [hno u] at hu
    cases hu

/-- If each Read is given at most INT_MAX bytes, it returns how many, at least one and at
most its size; and what the calls on a port return, in the order in which they leave the
kernel, is a prefix of its input, which has every byte taken once no call is inside. -/
theorem terminal_input (hr : ((system τ γ μ input).restrict (Short (Kernel.INT_MAX+1))).Reachable m) :
    (∀ x∈m.left, x.ret = x.bytes.length ∧ (0 < x.size → 1 ≤ x.ret ∧ x.ret ≤ x.size)) ∧
    ∀ p, bytesLeft m.left p <+: taken input p (m.pos p) ∧
      ((∀ t, m.cc.inside t = false) → bytesLeft m.left p = taken input p (m.pos p)) := by
  have h := reachable_good (Nat.succ_pos _) hr
  refine ⟨fun x hx => ?_,h.in_order⟩
  have hx := h.returned x hx
  have hret : x.ret = x.bytes.length := hx.ret.trans (Kernel.toInt_eq (Nat.le_of_lt_succ hx.bound))
  refine ⟨hret,fun hpos => ?_⟩
  have := hx.pos hpos
  have := hx.le
  omega

def readRun : List (Label (Fin 2) Unit Unit Unit) :=
  List.flatten [.read 0 () 4::List.replicate 3 (.run 0), .poll 0 false::List.replicate 9 (.run 0),
    .call 1 (.condBroadcast (.rxReady ()))::List.replicate 6 (.run 1), List.replicate 6 (.run 0),
    [.poll 0 true, .poll 0 true, .poll 0 false, .unlock 0, .run 0, .run 0]]

theorem terminal_input_two : ∃ m : State (Fin 2) Unit Unit Unit Nat, m.left = [⟨(),4,[0,1],2⟩] ∧
    (∀ x∈m.left, x.ret = x.bytes.length ∧ (0 < x.size → 1 ≤ x.ret ∧ x.ret ≤ x.size)) ∧
    ∀ p, bytesLeft m.left p <+: taken (fun _ k => k) p (m.pos p) ∧
      ((∀ t, m.cc.inside t = false) → bytesLeft m.left p = taken (fun _ k => k) p (m.pos p)) := by
  obtain ⟨m,hr,hm⟩ := System.reaches
    ((system (Fin 2) Unit Unit fun (_ : Unit) (k : Nat) => k).restrict
      (Short (Kernel.INT_MAX+1))) rfl
    readRun (fun m => m.left = [⟨(),4,[0,1],2⟩]) (by decide +kernel)
  exact ⟨m,hm,terminal_input hr⟩

theorem fills (hr : (system τ γ μ input).Reachable m) (hread : m.reading t = some r)
    (hloop : r.pc = .loop)
    (hpc : m.cc.pc t = .user) (hst : m.cc.stopped t = false) {k : Nat}
    (hk : r.buf.length+k ≤ r.size) :
    ∃ m', (system τ γ μ input).Reachable m' ∧ m'.cc = m.cc ∧
      ∃ buf, m'.reading t = some { r with buf := buf } ∧ buf.length = r.buf.length+k := by
  induction k with
  | zero => exact ⟨m,hr,rfl,r.buf,hread,rfl⟩
  | succ k ih =>
    obtain ⟨m1,hr1,hcc,buf,hread1,hlen⟩ := ih (by omega)
    have hlt : buf.length < r.size := by omega
    have hs : (system τ γ μ input).next m1 (.poll t true) =
        some (m1.takeByte input t { r with buf := buf }) := by
      simp [system, next, hread1, hloop, hcc, hpc, hst, serialRead, hlt]
    refine ⟨_,.step hr1 hs,hcc,buf++[input r.port (m1.pos r.port)],?_,?_⟩
    · simp [State.takeByte, State.setRead]
    · simp only [List.length_append, List.length_singleton]
      omega

theorem leaves (hr : (system τ γ μ input).Reachable m) (hread : m.reading t = some r)
    (hloop : r.pc = .loop)
    (hpc : m.cc.pc t = .user) (hst : m.cc.stopped t = false) (hin : m.cc.inside t = true)
    (hfree : m.cc.held (.mutex .kernelMutex) = none) (hfull : r.size ≤ r.buf.length) :
    ∃ m', (system τ γ μ input).Reachable m' ∧
    ⟨r.port,r.size,r.buf,Kernel.toInt r.buf.length⟩∈m'.left := by
  have h1 : (system τ γ μ input).next m (.poll t true) = some
    (m.setRead t (some { r with pc := .ret })) := by
    simp [system, next, hread, hloop, hpc, hst, serialRead, Nat.not_lt.mpr hfull]
  obtain ⟨m2,h2,hcc2,hr2⟩ : ∃ m2, (system τ γ μ input).next
    (m.setRead t (some { r with pc := .ret })) (.unlock t) =
      some m2 ∧ m2.cc = m.cc.goto t (.giveUp .kernelUnlock) ∧ m2.reading t = some
        { r with pc := .unlock } := by
    have hen : CC.Enabled m.cc (.call t .kernelUnlock) := ⟨hpc,hst,hin⟩
    simp [system, next, State.setRead, State.steps, hen, CC.exec, CC.call]
  obtain ⟨m3,h3,hcc3,hr3⟩ : ∃ m3, (system τ γ μ input).next m2 (.run t) = some m3 ∧
      m3.cc = (m2.cc.mutexLock t (.mutex .kernelMutex)).goto t (.incr .kernelUnlock) ∧
      m3.reading t = some { r with pc := .unlock } := by
    have hp2 : m2.cc.pc t = .giveUp .kernelUnlock := by simp [hcc2, CC.State.goto]
    have hen : CC.Enabled m2.cc (.run t) := by
      simp [CC.Enabled, CC.Pc.runs, CC.Pc.wants, hcc2, CC.State.goto, hst, hfree]
    simp [system, next, run, State.steps, hen, CC.exec, hp2, CC.runThread, hr2]
  obtain ⟨m4,h4,hleft⟩ : ∃ m4, (system τ γ μ input).next m3 (.run t) = some m4 ∧
      m4.left = m3.left++[⟨r.port,r.size,r.buf,Kernel.toInt r.buf.length⟩] := by
    have hp3 : m3.cc.pc t = .incr .kernelUnlock := by simp [hcc3, CC.State.goto]
    have hen : CC.Enabled m3.cc (.run t) := by
      simp [CC.Enabled, CC.Pc.runs, CC.Pc.wants, hcc3, hcc2, CC.State.goto, CC.State.mutexLock, hst]
    simp [system, next, run, State.steps, hen, CC.exec, hp3, CC.runThread, hr3, State.leave]
  exact ⟨m4,.step (.step (.step (.step hr h1) h2) h3) h4,by simp [hleft]⟩

/-- A Read of 2^31 bytes from a port that is always ready returns a negative number. -/
theorem count_overflows : ¬∀ m : State (Fin 2) Unit Unit Unit Nat,
    (system (Fin 2) Unit Unit fun (_ : Unit) (k : Nat) => k).Reachable m →
    (∀ x∈m.left, x.ret = x.bytes.length ∧ (0 < x.size → 1 ≤ x.ret ∧ x.ret ≤ x.size)) ∧
    ∀ p, bytesLeft m.left p <+: taken (fun _ k => k) p (m.pos p) ∧
      ((∀ t, m.cc.inside t = false) → bytesLeft m.left p = taken (fun _ k => k) p (m.pos p)) := by
  intro h
  obtain ⟨m,hr,hread,hpc,hst,hin,hfree⟩ :=
    (system (Fin 2) Unit Unit fun (_ : Unit) (k : Nat) => k).reaches rfl
      (.read 0 () (2^31)::List.replicate 3 (.run 0))
      (fun m => m.reading 0 = some ⟨(),2^31,[],.loop⟩ ∧ m.cc.pc 0 = .user ∧ m.cc.stopped 0 = false ∧
        m.cc.inside 0 = true ∧ m.cc.held (.mutex .kernelMutex) = none) (by decide +kernel)
  obtain ⟨m1,hr1,hcc,buf,hread1,hlen⟩ := fills (k := 2^31) hr hread rfl hpc hst (by simp)
  rw [← hcc] at hpc hst hin hfree
  have hlen : buf.length = 2^31 := by simpa using hlen
  obtain ⟨m2,hr2,hx⟩ := leaves hr1 hread1 rfl hpc hst hin hfree (Nat.le_of_eq hlen.symm)
  have hret := ((h m2 hr2).1 _ hx).1
  simp only [hlen] at hret
  revert hret
  decide

end TinyOS.Terminal
