import TinyOS.Spin.Code

/-! The invariant of contexts that are switched out with nothing held. -/
namespace TinyOS.Spin
open Transition
variable {κ τ π γ μ : Type*}

/-- The values of preempt_off: the first one is 1, and those after it are 0. -/
def Nested : List Bool → Prop
  | [] => True
  | pre::l => pre = l.isEmpty ∧ Nested l

structure Keeps (s s' : State κ τ π γ μ) : Prop where
  held : s'.held = s.held
  saves : s'.saves = s.saves
  preemption : s'.preemption = s.preemption
  cur : s'.cur = s.cur
  out : s'.out = s.out
  state : ∀ x, s'.state x = .INIT → s.state x = .INIT

section
variable [DecidableEq κ] [DecidableEq τ]

theorem Keeps.goto {s : State κ τ π γ μ} {c : κ} (k : List (Instr κ τ π γ μ)) {prev : κ → Ctx κ τ}
    {timed woken inside : Ctx κ τ → Bool} {sem : Int} {waitset : CondVar π γ → List (Ctx κ τ)} :
    Keeps s { s.goto c k with
      prev := prev
      timed := timed
      woken := woken
      kernelSem := sem
      inside := inside
      waitset := waitset } :=
  ⟨rfl,rfl,rfl,rfl,rfl,fun _ h => h⟩

theorem State.init_of_setState {s : State κ τ π γ μ} {x y : Ctx κ τ} {v : ThreadState}
    (hv : v≠.INIT)
    (h : (s.setState x v).state y = .INIT) : s.state y = .INIT := by
  simp only [State.setState, Function.update_apply] at h
  split at h
  · exact absurd h hv
  · exact h

theorem Keeps.setState {s : State κ τ π γ μ} {c : κ} (k : List (Instr κ τ π γ μ)) (x : Ctx κ τ)
    {v : ThreadState} {timed woken : Ctx κ τ → Bool} (hv : v≠.INIT) :
    Keeps s { (s.setState x v).goto c k with timed := timed, woken := woken } :=
  ⟨rfl,rfl,rfl,rfl,rfl,fun _ => State.init_of_setState hv⟩

end

variable [DecidableEq π] [DecidableEq γ] [DecidableEq μ]

structure Good (s : State κ τ π γ μ) : Prop where
  wf : ∀ x, Wf (s.code x)
  locks : ∀ l, l.spins = true → ∀ x, s.held l = some x ↔ needs l (s.code x) = true
  nested : ∀ x, Nested (s.saves x)
  saves : ∀ x, (s.saves x).length = depth (s.code x)
  preemption : ∀ c, s.preemption c = (s.saves (s.cur c)).isEmpty
  inj : Function.Injective s.cur
  live : ∀ c, s.out (s.cur c) = false
  /-- Contexts are switched out with nothing held and in the non-preemptive domain. -/
  bare : ∀ x, (∀ c, s.cur c≠x) → Bare (s.code x)
  parked : ∀ x, s.out x = true → 0 < depth (s.code x)
  fresh : ∀ x, s.state x = .INIT → x.isNormal = true ∧ ∀ c, s.cur c≠x

variable {s s' : State κ τ π γ μ} {c : κ} {k : List (Instr κ τ π γ μ)}

theorem Good.depth_eq_zero (h : Good s) (hp : s.preemption c = true) :
    depth (s.code (s.cur c)) = 0 := by
  rw [h.preemption c, List.isEmpty_iff_length_eq_zero, h.saves] at hp
  exact hp

theorem Good.needs_eq_false (h : Good s) (hp : s.preemption c = true) {l : Mutex π γ μ}
    (hl : l.nonPreemptive = true) : needs l (s.code (s.cur c)) = false := by
  rw [← Bool.not_eq_true]
  intro hn
  have := (h.wf (s.cur c)).guarded l hl hn
  rw [h.depth_eq_zero hp] at this
  exact Nat.lt_irrefl 0 this

theorem Good.rest {i : Instr κ τ π γ μ} (h : Good s) (hs : s.code (s.cur c) = i::k) :
    Wf k ∧ Fits k i := by
  have := h.wf (s.cur c)
  rw [hs] at this
  exact ⟨this.1,this.2.1⟩

theorem good_boot : Good (boot : State κ τ π γ μ) where
  wf _ := trivial
  locks _ _ _ := ⟨nofun,nofun⟩
  nested _ := trivial
  saves _ := rfl
  preemption _ := rfl
  inj _ _ h := Ctx.idle.inj h
  live _ := rfl
  bare _ _ := bare_nil
  parked _ := nofun
  fresh x h := by
    cases x with
    | idle c => cases h
    | normal t => exact ⟨rfl,nofun⟩

variable [DecidableEq κ]

theorem Good.selects {next : Ctx κ τ} (h : Good s) (hs : s.selects c next = true) :
    s.state next≠.INIT := by
  intro hi
  cases next with
  | idle c' => cases (h.fresh _ hi).1
  | normal t =>
    simp only [State.selects, hi] at hs
    cases hs

variable [DecidableEq τ]

theorem Good.runs (h : Good s) {v : List Bool}
    (hcode : s'.code = Function.update s.code (s.cur c) k)
    (hsaves : s'.saves = Function.update s.saves (s.cur c) v)
    (hpre : s'.preemption = Function.update s.preemption c v.isEmpty)
    (hcur : s'.cur = s.cur) (hout : s'.out = s.out)
    (hstate : ∀ x, s'.state x = .INIT → s.state x = .INIT)
    (hk : Wf k) (hv : Nested v) (hlen : v.length = depth k)
    (hlocks : ∀ l, l.spins = true → ∀ x, s'.held l = some x ↔ needs l (s'.code x) = true) :
    Good s' where
  wf x := by
    rw [hcode]
    by_cases hx : x = s.cur c
    · simpa [hx] using hk
    · simpa [hx] using h.wf x
  locks := hlocks
  nested x := by
    rw [hsaves]
    by_cases hx : x = s.cur c
    · simpa [hx] using hv
    · simpa [hx] using h.nested x
  saves x := by
    rw [hsaves, hcode]
    by_cases hx : x = s.cur c
    · simpa [hx] using hlen
    · simpa [hx] using h.saves x
  preemption c' := by
    rw [hpre, hsaves, hcur]
    by_cases hc : c' = c
    · simp [hc]
    · simpa [hc, h.inj.ne hc] using h.preemption c'
  inj := hcur ▸ h.inj
  live := by
    rw [hcur, hout]
    exact h.live
  bare x hx := by
    rw [hcur] at hx
    rw [hcode, Function.update_of_ne (hx c).symm]
    exact h.bare x hx
  parked x hx := by
    rw [hout] at hx
    have hne : x≠s.cur c := by
      rintro rfl
      rw [h.live c] at hx
      cases hx
    rw [hcode, Function.update_of_ne hne]
    exact h.parked x hx
  fresh x hx := by
    rw [hcur]
    exact h.fresh x (hstate x hx)

theorem Good.locks_goto (h : Good s)
    (hn : ∀ l, l.spins = true → needs l k = needs l (s.code (s.cur c)))
    {l : Mutex π γ μ} (hl : l.spins = true) (x : Ctx κ τ) :
    s.held l = some x ↔ needs l (Function.update s.code (s.cur c) k x) = true := by
  rw [h.locks l hl x]
  by_cases hx : x = s.cur c
  · simp [hx, hn l hl]
  · simp [hx]

theorem Good.goes (h : Good s) (hs : Keeps s s')
    (hcode : s'.code = Function.update s.code (s.cur c) k)
    (hk : Wf k) (hd : depth k = depth (s.code (s.cur c)))
    (hn : ∀ l, l.spins = true → needs l k = needs l (s.code (s.cur c))) : Good s' := by
  refine h.runs hcode (v := s.saves (s.cur c)) (by simp [hs.saves]) ?_ hs.cur hs.out hs.state hk
    (h.nested _)
    ((h.saves _).trans hd.symm) fun l hl x => ?_
  · rw [hs.preemption, ← h.preemption c, Function.update_eq_self]
  · rw [hs.held, hcode]
    exact h.locks_goto hn hl x

theorem Good.plain {i : Instr κ τ π γ μ} {k' : List (Instr κ τ π γ μ)} (h : Good s)
    (hi : s.code (s.cur c) = i::k) (hs : Keeps s s')
    (hcode : s'.code = Function.update s.code (s.cur c) k')
    (hk : Wf k') (hd : depth k' = depth (i::k))
    (hn : ∀ l, l.spins = true → needs l k' = needs l (i::k)) : Good s' :=
  h.goes hs hcode hk (by rw [hi, hd]) (by rw [hi]; exact hn)

theorem Good.holds {i : Instr κ τ π γ μ} {x : Mutex π γ μ} {v : Option (Ctx κ τ)} (h : Good s)
    (hs : s.code (s.cur c) = i::k) (hd : depth (i::k) = depth k)
    (hn : ∀ l, l≠x → needs l (i::k) = needs l k)
    (hx : x.spins = true → ∀ y, v = some y ↔
    needs x (Function.update s.code (s.cur c) k y) = true) :
    Good { s.goto c k with held := Function.update s.held x v } := by
  refine h.runs rfl (v := s.saves (s.cur c)) (by simp [State.goto]) ?_ rfl rfl (fun _ h => h)
    (h.rest hs).1
    (h.nested _) ?_ ?_
  · rw [← h.preemption c, Function.update_eq_self]
    rfl
  · rw [h.saves, hs, hd]
  · intro l hl y
    by_cases hlx : l = x
    · subst l
      simpa [State.goto] using hx hl y
    · have := h.locks l hl y
      by_cases hy : y = s.cur c
      · subst hy
        simpa [State.goto, hlx, hs, hn l hlx] using this
      · simpa [State.goto, hlx, hy] using this

theorem Good.lock {x : Mutex π γ μ} (h : Good s) (hs : s.code (s.cur c) = .lock x::k)
    (hx : s.held x = none) :
    Good { s.goto c k with held := Function.update s.held x (some (s.cur c)) } := by
  refine h.holds hs rfl (fun l hl => by simp [needs, hl]) fun hsp y => ?_
  by_cases hy : y = s.cur c
  · subst hy
    simpa using (h.rest hs).2.1 hsp
  · have := h.locks x hsp y
    rw [hx] at this
    simpa [hy, Ne.symm hy] using this

theorem Good.unlock {x : Mutex π γ μ} (h : Good s) (hs : s.code (s.cur c) = .unlock x::k) :
    Good { s.goto c k with held := Function.update s.held x none } := by
  refine h.holds hs rfl (fun l hl => by simp [needs, hl]) fun hsp y => ?_
  have hheld : s.held x = some (s.cur c) := (h.locks x hsp _).2 (by simp [hs, needs])
  by_cases hy : y = s.cur c
  · subst hy
    simpa using (h.rest hs).2 hsp
  · have := h.locks x hsp y
    rw [hheld] at this
    simpa [hy, Ne.symm hy] using this

theorem Good.preemptOff (h : Good s) (hs : s.code (s.cur c) = .preemptOff::k) :
    Good ((s.popSave c (s.preemption c::s.saves (s.cur c)) false).goto c k) := by
  obtain ⟨hk,hf⟩ := h.rest hs
  have hd : depth (s.code (s.cur c)) = depth k-1 := by rw [hs]; rfl
  have hf : 0 < depth k := hf
  refine h.runs rfl rfl rfl rfl rfl (fun _ h => h) hk ⟨h.preemption c,h.nested _⟩ ?_ ?_
  · rw [List.length_cons, h.saves, hd]
    omega
  · exact fun l hl x => h.locks_goto (fun l _ => by rw [hs]; rfl) hl x

theorem Good.restore {pre : Bool} {v : List Bool} (h : Good s) (hs : s.code (s.cur c) = .restore::k)
    (hv : s.saves (s.cur c) = pre::v) :
    Good ((s.popSave c v (s.preemption c || pre)).goto c k) := by
  have hn := h.nested (s.cur c)
  have hl := h.saves (s.cur c)
  have hp := h.preemption c
  rw [hv] at hn hl hp
  rw [hs] at hl
  have he : (s.preemption c || pre) = v.isEmpty := by rw [hp, hn.1]; rfl
  refine h.runs rfl rfl ?_ rfl rfl (fun _ h => h) (h.rest hs).1 hn.2 (Nat.succ.inj hl) ?_
  · rw [he]
    rfl
  · exact fun l hl x => h.locks_goto (fun l _ => by rw [hs]; rfl) hl x

theorem Good.preemptOn {pre : Bool} {v : List Bool} (h : Good s)
    (hs : s.code (s.cur c) = .preemptOn::k)
    (hv : s.saves (s.cur c) = pre::v) : Good ((s.popSave c v true).goto c k) := by
  have hn := h.nested (s.cur c)
  have hl := h.saves (s.cur c)
  rw [hv] at hn hl
  rw [hs] at hl
  have hl : v.length = depth k := Nat.succ.inj hl
  have he : v = [] := List.eq_nil_of_length_eq_zero (hl.trans (h.rest hs).2)
  subst he
  refine h.runs rfl rfl rfl rfl rfl (fun _ h => h) (h.rest hs).1 hn.2 hl ?_
  exact fun l hl x => h.locks_goto (fun l _ => by rw [hs]; rfl) hl x

theorem Good.runInstr {i : Instr κ τ π γ μ} (h : Good s) (hs : s.code (s.cur c) = i::k)
    (hr : runInstr s c k i = some s') : Good s' := by
  obtain ⟨hk,hf⟩ := h.rest hs
  cases i with
  | lock x =>
    simp only [Spin.runInstr, Option.ite_none_right_eq_some, Option.some.injEq] at hr
    obtain ⟨hx,rfl⟩ := hr
    exact h.lock hs (Option.isNone_iff_eq_none.mp hx)
  | unlock x =>
    cases hr
    exact h.unlock hs
  | preemptOff =>
    cases hr
    exact h.preemptOff hs
  | restore =>
    simp only [Spin.runInstr] at hr
    split at hr
    · cases hr
    · cases hr
      exact h.restore hs ‹_›
  | preemptOn =>
    simp only [Spin.runInstr] at hr
    split at hr
    · cases hr
    · cases hr
      exact h.preemptOn hs ‹_›
  | testSem =>
    simp only [Spin.runInstr] at hr
    split at hr
    · cases hr
      have ht : Wf (.testSem::k) := hs ▸ h.wf (s.cur c)
      refine h.plain hs (Keeps.goto _) rfl (wf_cvWait _ _ rfl ht hf nofun ⟨nofun,nofun⟩) rfl
        fun l hl => ?_
      rw [only_cvWait (k := .testSem::k) _ _ rfl hf l hl]
      exact (hf l hl).symm
    · cases hr
      exact h.plain hs (Keeps.goto _) rfl hk rfl fun _ _ => rfl
  | decr | incr | push cv | tidy cv =>
    cases hr
    exact h.plain hs (Keeps.goto _) rfl hk rfl fun _ _ => rfl
  | signal cv b =>
    simp only [Spin.runInstr] at hr
    split at hr
    · cases hr
      exact h.plain hs (Keeps.goto _) rfl hk rfl fun _ _ => rfl
    · cases hr
      have ha : Wf (.again cv b::k) := ⟨hk,hf,hk.guarded⟩
      refine h.plain hs (Keeps.goto _) rfl (wf_wakeup _ ha hf) rfl fun l _ => ?_
      rw [needs_wakeup]
      split
      · subst l
        exact hf.symm
      · rfl
  | again cv b =>
    simp only [Spin.runInstr] at hr
    split at hr
    · cases hr
      exact h.plain hs (Keeps.goto _) rfl hk rfl fun _ _ => rfl
    · cases hr
      have ha : Wf (.signal cv b::k) := ⟨hk,hf,hk.guarded⟩
      exact h.plain hs (Keeps.goto _) rfl ha rfl fun _ _ => rfl
  | makeReady x =>
    simp only [Spin.runInstr] at hr
    split at hr
    · cases hr
      exact h.plain hs (Keeps.setState _ _ (by simp)) rfl hk rfl fun _ _ => rfl
    · cases hr
      exact h.plain hs (Keeps.goto _) rfl hk rfl fun _ _ => rfl
  | stop e t =>
    cases hr
    exact h.plain hs (Keeps.setState _ _ (by cases e <;> simp)) rfl hk rfl fun _ _ => rfl
  | select =>
    simp only [Spin.runInstr] at hr
    split at hr
    · cases hr
      exact h.plain hs (Keeps.setState _ _ (by simp)) rfl hk rfl fun _ _ => rfl
    any_goals
      cases hr
      exact h.plain hs (Keeps.goto _) rfl hk rfl fun _ _ => rfl
    · cases hr
  | takeOver =>
    cases hr
    split
    · refine h.plain hs (Keeps.setState _ _ (by simp)) rfl ?_ rfl fun l _ => ?_
      · exact wf_lock (wf_unlock hk (fun _ => hf) fun hn => by cases hn)
          (fun _ => by simp [needs]) fun hn => by cases hn
      · by_cases hl : l = .activeThreadsSpinlock
        · subst l
          simpa [countThread, needs] using Eq.symm hf
        · simp [countThread, needs, hl]
    · exact h.plain hs (Keeps.setState _ _ (by simp)) rfl hk rfl fun _ _ => rfl
  | switch | poll p => cases hr

theorem Good.swap {next : Ctx κ τ} {f : κ → Ctx κ τ} (h : Good s) (hb : Bare (s.code (s.cur c)))
    (hd : 0 < depth (s.code (s.cur c))) (hout : s.out next = true) (hstate : s.state next≠.INIT) :
    Good { s with
      cur := Function.update s.cur c next
      prev := f
      out := Function.update (Function.update s.out (s.cur c) true) next false } := by
  have hne : ∀ c', s.cur c'≠next := by
    rintro c' rfl
    rw [h.live c'] at hout
    cases hout
  have hempty : ∀ x, 0 < depth (s.code x) → (s.saves x).isEmpty = false := by
    intro x hx
    rw [← h.saves x] at hx
    simpa using List.ne_nil_of_length_pos hx
  refine ⟨h.wf,h.locks,h.nested,h.saves,fun c' => ?_,fun c₁ c₂ he => ?_,fun c' => ?_,fun x hx => ?_,
    fun x hx => ?_,fun x hx => ?_⟩
  · by_cases hc : c' = c
    · subst hc
      simp [h.preemption c', hempty _ hd, hempty _ (h.parked next hout)]
    · simpa [hc] using h.preemption c'
  · by_cases h₁ : c₁ = c <;> by_cases h₂ : c₂ = c
    · rw [h₁, h₂]
    · simp only [h₁, h₂, Function.update_self, ne_eq, not_false_eq_true,
        Function.update_of_ne] at he
      exact absurd he.symm (hne c₂)
    · simp only [h₁, h₂, Function.update_self, ne_eq, not_false_eq_true,
        Function.update_of_ne] at he
      exact absurd he (hne c₁)
    · simp only [h₁, h₂, ne_eq, not_false_eq_true, Function.update_of_ne] at he
      exact h.inj he
  · by_cases hc : c' = c
    · simp [hc]
    · simp [hc, hne c', h.inj.ne hc, h.live c']
  · by_cases hx' : x = s.cur c
    · exact hx' ▸ hb
    · refine h.bare x fun c' hc' => ?_
      by_cases hc : c' = c
      · exact hx' (hc ▸ hc'.symm)
      · exact hx c' (by simpa [hc] using hc')
  · by_cases hn : x = next
    · simp [hn] at hx
    · by_cases hx' : x = s.cur c
      · exact hx' ▸ hd
      · exact h.parked x (by simpa [hn, hx'] using hx)
  · obtain ⟨hnormal,hcur⟩ := h.fresh x hx
    refine ⟨hnormal,fun c' hc' => ?_⟩
    by_cases hc : c' = c
    · simp only [hc, Function.update_self] at hc'
      exact hstate (hc' ▸ hx)
    · exact hcur c' (by simpa [hc] using hc')

theorem Good.cpuSwapContext {next : Ctx κ τ} (h : Good s)
    (hr : cpuSwapContext s c next (s.code (s.cur c)) = some s') : Good s' := by
  cases hs : s.code (s.cur c) with
  | nil => rw [hs] at hr; cases hr
  | cons i k =>
    cases i with
    | switch =>
      simp only [hs, Spin.cpuSwapContext, Option.ite_none_right_eq_some, Option.some.injEq] at hr
      obtain ⟨⟨hout,hsel⟩,rfl⟩ := hr
      obtain ⟨hk,hb,hd⟩ := h.rest hs
      have hg : Good (s.goto c k) := h.plain hs (Keeps.goto k) rfl hk rfl fun _ _ => rfl
      have hcode : (s.goto c k).code ((s.goto c k).cur c) = k := by simp [State.goto]
      exact hg.swap (by rw [hcode]; exact hb) (by rw [hcode]; exact hd) hout (h.selects hsel)
    | _ => rw [hs] at hr; cases hr

theorem Good.stay (h : Good s) (hr : stay s c (s.code (s.cur c)) = some s') : Good s' := by
  cases hs : s.code (s.cur c) with
  | nil => rw [hs] at hr; cases hr
  | cons i k =>
    cases i with
    | switch =>
      simp only [hs, Spin.stay, Option.ite_none_right_eq_some, Option.some.injEq] at hr
      obtain ⟨-,rfl⟩ := hr
      exact h.plain hs (Keeps.goto _) rfl (h.rest hs).1 rfl fun _ _ => rfl
    | _ => rw [hs] at hr; cases hr

theorem Good.poll {r : Poll} (h : Good s) (hr : poll s c r (s.code (s.cur c)) = some s') :
    Good s' := by
  cases hs : s.code (s.cur c) with
  | nil => rw [hs] at hr; cases hr
  | cons i k =>
    cases i with
    | poll port =>
      rw [hs] at hr
      obtain ⟨hk,hb,hd⟩ := h.rest hs
      cases r with
      | byte =>
        cases hr
        exact h
      | wait =>
        cases hr
        have hp : Wf (.poll port::k) := hs ▸ h.wf (s.cur c)
        obtain ⟨hw,hbare⟩ := wf_kernelWait (k := .poll port::k) (.rxReady port) false hp hb
          ⟨fun _ => hd,nofun⟩
        refine h.plain hs (Keeps.goto _) rfl hw rfl fun l hl => ?_
        rw [hbare l hl]
        exact (hb l hl).symm
      | done =>
        cases hr
        exact h.plain hs (Keeps.goto _) rfl hk rfl fun _ _ => rfl
    | _ => rw [hs] at hr; cases hr

theorem Good.preempted (h : Good s) (hb : Bare (s.code (s.cur c))) :
    Good (s.goto c (yield++s.code (s.cur c))) :=
  h.goes (Keeps.goto _) rfl (wf_yield (h.wf _) hb) rfl fun l hl => by rw [hb.yield l hl, hb l hl]

theorem Good.serialRx (ports : List π) (h : Good s) (hp : s.preemption c = true) :
    Good (s.goto c (serialRxHandler ports++s.code (s.cur c))) := by
  obtain ⟨hw,hd,hn⟩ := wf_serialRxHandler ports (h.wf (s.cur c)) fun l hl => h.needs_eq_false hp hl
  exact h.goes (Keeps.goto _) rfl hw hd fun l _ => hn l

theorem Good.spawn {f : Call τ π γ μ} (h : Good s) (hf : CallOk s (s.cur c) f) :
    Good (s.spawn f) := by
  cases f with
  | spawnThread t =>
    obtain ⟨hinit,hout⟩ := hf
    have hcur := (h.fresh _ hinit).2
    have hb := h.bare _ hcur
    have hgain : Bare (gain : List (Instr κ τ π γ μ)) := by
      simpa using Bare.gain (bare_nil (κ := κ) (τ := τ) (π := π) (γ := γ) (μ := μ))
    have hwf : Wf (gain : List (Instr κ τ π γ μ)) := by
      simpa using wf_gain (k := ([] : List (Instr κ τ π γ μ))) trivial rfl rfl
    refine ⟨fun x => ?_,fun l hl x => ?_,fun x => ?_,fun x => ?_,fun c' => ?_,h.inj,fun c' => ?_,
      fun x hx => ?_,
      fun x hx => ?_,h.fresh⟩
    all_goals simp only [State.spawn]
    · by_cases hx : x = .normal t
      · simpa [hx] using hwf
      · simpa [hx] using h.wf x
    · rw [h.locks l hl x]
      by_cases hx : x = .normal t
      · simp [hx, hb l hl, hgain l hl]
      · simp [hx]
    · by_cases hx : x = .normal t
      · simp [hx, Nested]
      · simpa [hx] using h.nested x
    · by_cases hx : x = .normal t
      · simp only [hx, Function.update_self]
        rfl
      · simpa [hx] using h.saves x
    · simpa [hcur c'] using h.preemption c'
    · simpa [hcur c'] using h.live c'
    · by_cases hx' : x = .normal t
      · simpa [hx'] using hgain
      · simpa [hx'] using h.bare x hx
    · by_cases hx' : x = .normal t
      · simp only [hx', Function.update_self]
        exact Nat.succ_pos _
      · simp only [State.spawn, ne_eq, hx', not_false_eq_true, Function.update_of_ne] at hx ⊢
        exact h.parked x hx
  | _ => exact h

theorem spawn_code {f : Call τ π γ μ} (h : Good s) (hf : CallOk s (s.cur c) f) :
    (s.spawn f).code (s.cur c) = s.code (s.cur c) ∧ (s.spawn f).cur = s.cur := by
  cases f with
  | spawnThread t => exact ⟨Function.update_of_ne ((h.fresh _ hf.1).2 c) _ _,rfl⟩
  | _ => exact ⟨rfl,rfl⟩

theorem Good.call {f : Call τ π γ μ} (h : Good s) (hs : s.code (s.cur c) = [])
    (hf : CallOk s (s.cur c) f) :
    Good ((s.spawn f).goto c f.code) := by
  obtain ⟨hcode,hcur⟩ := spawn_code h hf
  obtain ⟨hw,hb,hd⟩ := wf_call (κ := κ) f
  rw [hs, ← hcur] at hcode
  refine (h.spawn hf).goes (Keeps.goto _) rfl hw ?_ fun l hl => ?_
  · rw [hcode, hd]
    rfl
  · rw [hcode, hb l hl]
    rfl

end TinyOS.Spin
