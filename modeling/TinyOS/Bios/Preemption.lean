import TinyOS.Bios.Stacks

/-! Preemption stays with the thread: what the stack of a context says of the flags holds
of the core it runs on, as long as no context is moved to another core inside
cpu_disable_interrupts. -/
namespace TinyOS.Bios
variable {κ τ ρ : Type*}

def Core.flags (k : Core) : Flags := ⟨k.preemption,k.intDisabled,k.blocked⟩

def State.flags (s : State κ τ ρ) (c : κ) : Flags := (s.core c).flags

def Frame.Here (f : Frame κ) (c : κ) : Prop :=
  (∀ k, f.disables = some k → k = c) ∧ ∀ k, f.relies = some k → k = c

structure Good (s : State κ τ ρ) : Prop where
  fits : ∀ c, Fits (s.top c) (s.flags c)
  here : ∀ c, ∀ f∈s.top c, f.Here c
  live : ∀ c, s.saved (s.cur c) = none
  inj : ∀ c c', s.cur c = s.cur c' → c = c'
  out : ∀ x b, s.saved x = some b → Out (s.stack x) b

variable [DecidableEq κ] [DecidableEq τ] [DecidableEq ρ]
variable {s s' : State κ τ ρ} {c : κ} {l rest : List (Frame κ)}

structure Moves (s s' : State κ τ ρ) (c : κ) (l : List (Frame κ)) : Prop where
  cur : s'.cur = s.cur
  saved : s'.saved = s.saved
  stack : s'.stack = Function.update s.stack (s.cur c) l
  flags : ∀ c', c'≠c → s'.flags c' = s.flags c'

omit [DecidableEq ρ] in
theorem Good.moves (h : Good s) (hm : Moves s s' c l) (hf : Fits l (s'.flags c))
    (hh : ∀ f∈l, f.Here c) : Good s' := by
  have htop : ∀ c', c'≠c → s'.top c' = s.top c' := by
    intro c' hc
    have hne : s.cur c'≠s.cur c := fun he => hc (h.inj _ _ he)
    simp [State.top, hm.cur, hm.stack, hne]
  have htopc : s'.top c = l := by simp [State.top, hm.cur, hm.stack]
  refine ⟨fun c' => ?_,fun c' => ?_,fun c' => ?_,fun c1 c2 he => ?_,fun x b hx => ?_⟩
  · by_cases hc : c' = c
    · rw [hc, htopc]
      exact hf
    · rw [htop c' hc, hm.flags c' hc]
      exact h.fits c'
  · by_cases hc : c' = c
    · rw [hc, htopc]
      exact hh
    · rw [htop c' hc]
      exact h.here c'
  · rw [hm.cur, hm.saved]
    exact h.live c'
  · rw [hm.cur] at he
    exact h.inj c1 c2 he
  · rw [hm.saved] at hx
    have hne : x≠s.cur c := by
      rintro rfl
      rw [h.live c] at hx
      cases hx
    rw [hm.stack, Function.update_of_ne hne]
    exact h.out x b hx

section
omit [DecidableEq ρ]

theorem Good.goto (h : Good s) (hf : Fits l (s.flags c)) (hh : ∀ f∈l, f.Here c) :
    Good (s.goto c l) :=
  h.moves ⟨rfl,rfl,rfl,fun _ _ => rfl⟩ hf hh

theorem Good.modify (h : Good s) (f : Core → Core) (hf : Fits l (f (s.core c)).flags)
    (hh : ∀ g∈l, g.Here c) : Good ((s.modCore c f).goto c l) := by
  refine h.moves ⟨rfl,rfl,rfl,fun c' hc => ?_⟩ ?_ hh
  · simp [State.flags, State.modCore, State.goto, hc]
  · simpa [State.flags, State.modCore, State.goto] using hf

omit [DecidableEq κ] [DecidableEq τ] in
theorem Good.same (h : Good s) (hcore : ∀ c, s'.flags c = s.flags c) (hcur : s'.cur = s.cur)
    (hstack : s'.stack = s.stack) (hsaved : s'.saved = s.saved) : Good s' := by
  have htop : ∀ c, s'.top c = s.top c := fun c => by rw [State.top, State.top, hcur, hstack]
  refine ⟨fun c => ?_,fun c => ?_,fun c => ?_,fun c1 c2 he => ?_,fun x b hx => ?_⟩
  · rw [htop, hcore]
    exact h.fits c
  · rw [htop]
    exact h.here c
  · rw [hcur, hsaved]
    exact h.live c
  · rw [hcur] at he
    exact h.inj c1 c2 he
  · rw [hsaved] at hx
    rw [hstack]
    exact h.out x b hx

omit [DecidableEq τ] in
theorem flags_modCore (k : κ) (f : Core → Core) (hf : (f (s.core k)).flags = (s.core k).flags)
    (c : κ) :
    (s.modCore k f).flags c = s.flags c := by
  by_cases hc : c = k
  · subst hc
    simpa [State.flags, State.modCore] using hf
  · simp [State.flags, State.modCore, hc]

omit [DecidableEq τ] in
theorem Good.modCore (h : Good s) (k : κ) (f : Core → Core)
    (hf : (f (s.core k)).flags = (s.core k).flags) :
    Good (s.modCore k f) :=
  h.same (flags_modCore k f hf) rfl rfl rfl

end

omit [DecidableEq κ] in
theorem here_cons {f : Frame κ} (hd : f.disables = none) (hr : f.relies = none)
    (hl : ∀ g∈l, g.Here c) : ∀ g∈f::l, g.Here c := by
  refine List.forall_mem_cons.mpr ⟨?_,hl⟩
  simp [Frame.Here, hd, hr]

omit [DecidableEq κ] in
theorem here_unblocked (hl : ∀ g∈l, g.Here c) : ∀ g∈unblocked l, g.Here c := by
  intro g hg
  obtain ⟨f,hf,rfl⟩ := List.mem_map.mp hg
  have := hl f hf
  cases f with
  | sigusr1 k o pc =>
    cases pc with
    | enter => exact this
    | ret => exact this
  | _ => exact this

omit [DecidableEq κ] [DecidableEq τ] [DecidableEq ρ] in
theorem Good.here_rest {f : Frame κ} (h : Good s) (htop : s.top c = f::rest) :
    ∀ g∈rest, g.Here c := fun g hg => h.here c g (by simp [htop, hg])

omit [DecidableEq κ] [DecidableEq τ] [DecidableEq ρ] in
theorem Good.control {f : Frame κ} (h : Good s) (htop : s.top c = f::rest) :
    Fits (f::rest) (s.flags c) := htop ▸ h.fits c

section
omit [DecidableEq ρ]

theorem setCorePreemption_good {pc : PreemptionPc} (h : Good s)
    (htop : s.top c = .setPreemption pc::rest) : Good (setCorePreemption s c rest pc) := by
  have hh := h.here_rest htop
  have hf := h.control htop
  generalize hF : s.flags c = F at hf
  cases hf with
  | base h => cases h
  | preemptOff hs => exact h.goto (hF ▸ .disableLoad hs) (here_cons rfl rfl (here_cons rfl rfl hh))
  | exchangeOff hs =>
    obtain ⟨hp,hd,hb⟩ := Flags.mk.inj hF
    refine h.modify _ ?_ ?_
    · simp only [Core.flags, hd, hb, hp]
      exact hs.result
    · rw [hp]
      cases hs with
      | yield hs => exact here_cons rfl rfl (List.forall_mem_cons.mp hh).2
      | bracket hs hf => exact here_cons rfl rfl (List.forall_mem_cons.mp hh).2
  | exchangeOn hl =>
    obtain ⟨hp,hd,hb⟩ := Flags.mk.inj hF
    refine h.modify _ ?_ (here_cons rfl rfl hh)
    simp only [Core.flags, hd]
    exact .preemptOn hl
  | preemptOn hl => exact h.goto (hF ▸ .enableLoad hl) (here_cons rfl rfl (here_cons rfl rfl hh))
  | preemptDone hl => exact h.goto (hF ▸ hl) hh

theorem cpuDisableInterrupts_good {pc : DisablePc κ} {wrote : List κ} (h : Good s)
    (htop : s.top c = .disable pc wrote::rest) : Good (cpuDisableInterrupts s c wrote rest pc) := by
  have hh := h.here_rest htop
  have hf := h.control htop
  have hhere := h.here c _ (htop ▸ List.mem_cons_self)
  generalize hF : s.flags c = F at hf
  cases hf with
  | base h => cases h
  | disableLoad hs =>
    refine h.goto (hF ▸ .disableTest hs) (List.forall_mem_cons.mpr ⟨?_,hh⟩)
    simp [Frame.Here, Frame.disables, Frame.relies]
  | @disableTest k _ _ L hs =>
    obtain rfl : k = c := hhere.1 k rfl
    simp only [cpuDisableInterrupts]
    split
    · rename_i hd
      have hL : L = .off := by
        have := congrArg Flags.intDisabled hF
        cases L <;> simp_all [State.flags, Core.flags, Level.flags]
      subst hL
      have hg := h.goto (l := .setPreemption .exchangeOff::_) (hF ▸ .exchangeOff hs) hh
      exact ⟨hg.fits,hg.here,hg.live,hg.inj,hg.out⟩
    · rename_i hd
      have hL : L≠.off := by
        rintro rfl
        exact hd (congrArg Flags.intDisabled hF)
      have hpre : L.pre = true := by
        cases L <;> first | rfl | exact absurd rfl hL
      refine h.goto (hF ▸ .disableBlock (hpre ▸ hs) hL) (List.forall_mem_cons.mpr ⟨?_,hh⟩)
      simp [Frame.Here, Frame.disables, Frame.relies]
  | @disableBlock k _ _ L hs hL =>
    refine h.modify _ ?_ (List.forall_mem_cons.mpr ⟨?_,hh⟩)
    · have hflags : ({ s.core c with blocked := true } : Core).flags = Level.sig.flags := by
        have hp := congrArg Flags.preemption hF
        have hd := congrArg Flags.intDisabled hF
        cases L <;> simp_all [State.flags, Core.flags, Level.flags]
      rw [hflags]
      exact .disableSet hs
    · simpa [Frame.Here, Frame.disables, Frame.relies] using hhere
  | @disableSet k _ _ hs =>
    obtain rfl : k = c := hhere.1 k rfl
    obtain ⟨hp,hd,hb⟩ := Flags.mk.inj hF
    have hg := h.modify (c := k) (l := .setPreemption .exchangeOff::_)
      (fun k => { k with intDisabled := true }) ?_ hh
    · exact ⟨hg.fits,hg.here,hg.live,hg.inj,hg.out⟩
    · simp only [Core.flags, hp, hb]
      exact .exchangeOff hs

theorem deliver_good (h : Good s)
    (hf : Fits l ⟨(s.core c).preemption,(s.core c).intDisabled,false⟩) (hh : ∀ f∈l, f.Here c) :
    Good (s.deliver c l) := by
  refine h.modify _ (.signalEnter hf) (List.forall_mem_cons.mpr ⟨?_,hh⟩)
  simp [Frame.Here, Frame.disables, Frame.relies]

theorem sigUnblock_good (h : Good s)
    (hf : Fits l ⟨(s.core c).preemption,(s.core c).intDisabled,false⟩) (hh : ∀ f∈l, f.Here c) :
    Good (s.sigUnblock c l) := by
  unfold State.sigUnblock
  split
  · exact deliver_good h hf.unblocked (here_unblocked hh)
  · exact h.modify _ hf.unblocked (here_unblocked hh)

theorem cpuEnableInterrupts_good {pc : EnablePc κ} (h : Good s)
    (htop : s.top c = .enable pc::rest) : Good (cpuEnableInterrupts s c rest pc) := by
  have hh := h.here_rest htop
  have hf := h.control htop
  have hhere := h.here c _ (htop ▸ List.mem_cons_self)
  generalize hF : s.flags c = F at hf
  cases hf with
  | base h => cases h
  | enableLoad hl =>
    refine h.goto (hF ▸ .enableTest hl) (List.forall_mem_cons.mpr ⟨?_,hh⟩)
    simp [Frame.Here, Frame.disables, Frame.relies]
  | @enableTest k _ _ hl =>
    obtain rfl : k = c := hhere.2 k rfl
    have hd : (s.core k).intDisabled = true := congrArg Flags.intDisabled hF
    simp only [cpuEnableInterrupts, hd, if_true]
    refine h.goto (hF ▸ .enableClear hl) (List.forall_mem_cons.mpr ⟨?_,hh⟩)
    simp [Frame.Here, Frame.disables, Frame.relies]
  | @enableClear k _ _ hl =>
    obtain rfl : k = c := hhere.2 k rfl
    obtain ⟨hp,hd,hb⟩ := Flags.mk.inj hF
    refine h.modify _ ?_ (here_cons rfl rfl hh)
    simp only [Core.flags, hp, hb]
    exact .enableUnblock hl
  | enableUnblock hl =>
    obtain ⟨hp,hd,-⟩ := Flags.mk.inj hF
    refine sigUnblock_good h ?_ (here_cons rfl rfl hh)
    rw [hp, hd]
    exact .enableDispatch hl
  | enableDispatch hl => exact h.goto (hF ▸ .base (.dispatchEnable hl)) (here_cons rfl rfl (here_cons rfl rfl hh))
  | enableRet hl => exact h.goto (hF ▸ .preemptDone hl) hh

theorem biosSetTimer_good {usec : Nat} {pc : TimerPc κ} {wrote : List κ} (h : Good s)
    (htop : s.top c = .setTimer usec pc wrote::rest) :
    Good (biosSetTimer s c usec wrote rest pc) := by
  have hh := h.here_rest htop
  have hf : Fits rest (s.flags c) := by
    have hf := h.control htop
    generalize s.flags c = F at hf
    cases hf with
    | base h => cases h
    | setTimer h => exact h
  have go : ∀ pc' wrote', Fits (.setTimer usec pc' wrote'::rest) (s.flags c) ∧
      ∀ g∈Frame.setTimer usec pc' wrote'::rest, g.Here c := fun _ _ =>
    ⟨.setTimer hf,here_cons rfl rfl hh⟩
  cases pc with
  | load => exact h.goto (go _ _).1 (go _ _).2
  | settime k =>
    exact (h.modCore k _ rfl).goto (by rw [flags_modCore k _ rfl]; exact (go _ _).1) (go _ _).2
  | reload => exact h.goto (go _ _).1 (go _ _).2
  | clear k =>
    exact (h.modCore k _ rfl).goto (by rw [flags_modCore k _ rfl]; exact (go _ _).1) (go _ _).2
  | ret =>
    have hg := h.goto hf hh
    exact ⟨hg.fits,hg.here,hg.live,hg.inj,hg.out⟩

theorem dispatchInterrupts_good {k : κ} {is : List Interrupt} {pc : DispatchPc} (h : Good s)
    (htop : s.top c = .dispatch k is pc::rest) : Good (dispatchInterrupts s c k rest is pc) := by
  have hh := h.here_rest htop
  have hf := h.control htop
  generalize hF : s.flags c = F at hf
  cases hf with
  | @base _ L hb =>
    obtain ⟨hend,hoff⟩ := hb.loop_end
    have hloop : ∀ is' pc', Fits (.dispatch k is' pc'::rest) (s.flags c) := fun is' pc' =>
      hF ▸ .base hb.dispatch
    have hhere : ∀ is' pc', ∀ g∈Frame.dispatch k is' pc'::rest, g.Here c := fun is' pc' =>
      here_cons rfl rfl hh
    cases is with
    | nil => exact h.goto (hF ▸ hend) hh
    | cons i is =>
      cases pc with
      | test =>
        simp only [dispatchInterrupts]
        split
        · exact h.goto (hF ▸ hend) hh
        · exact h.goto (hloop _ _) (hhere _ _)
      | pending =>
        simp only [dispatchInterrupts]
        split
        · exact h.goto (hloop _ _) (hhere _ _)
        · exact h.goto (hloop _ _) (hhere _ _)
      | clear =>
        exact (h.modCore k _ rfl).goto (by rw [flags_modCore k _ rfl]; exact hloop _ _)
          (hhere _ _)
      | call =>
        simp only [dispatchInterrupts]
        split
        · exact h.goto (hloop _ _) (hhere _ _)
        · rename_i handler _
          have hpre : (s.core c).preemption = L.pre :=
            (congrArg Flags.preemption hF).trans L.pre_flags
          have hg : Good (s.goto c
            (handler.frames (s.core c).preemption++.dispatch k is .test::rest)) := by
            rw [hpre]
            cases handler with
            | yieldHandler => exact h.goto (hF ▸ .yieldCancel hb.dispatch) (here_cons rfl rfl (hhere _ _))
            | serialRxHandler =>
              exact h.goto (hF ▸ .bracketOff hb.dispatch (by simp)) (here_cons rfl rfl (hhere _ _))
            | iciHandler => exact h.goto (hloop _ _) (hhere _ _)
            | serialTxHandler => exact h.goto (hloop _ _) (hhere _ _)
          exact ⟨hg.fits,hg.here,hg.live,hg.inj,hg.out⟩

theorem sigusr1Handler_good {k : κ} {o : Bool} {pc : SignalPc} (h : Good s)
    (htop : s.top c = .sigusr1 k o pc::rest) : Good (sigusr1Handler s c k o rest pc) := by
  have hh := h.here_rest htop
  have hf := h.control htop
  have hhere := h.here c _ (htop ▸ List.mem_cons_self)
  generalize hF : s.flags c = F at hf
  cases hf with
  | base h => cases h
  | @signalEnter _ _ _ p d hl =>
    obtain rfl : k = c := hhere.2 k rfl
    obtain ⟨hp,hd,hb⟩ := Flags.mk.inj hF
    simp only [sigusr1Handler]
    split
    · exact h.goto (hF ▸ .signalRet hl) (here_cons rfl rfl hh)
    · rename_i hdis
      obtain rfl : d = false := by simpa [hd] using hdis
      obtain rfl : p = true := hl.preemption rfl
      exact h.goto (hF ▸ .base (L := .sig) (.dispatchSignal hl (by decide)))
        (here_cons rfl rfl (here_cons rfl rfl hh))
  | signalRet hl =>
    obtain ⟨hp,hd,hb⟩ := Flags.mk.inj hF
    refine h.modify _ ?_ hh
    simp only [Core.flags, hp, hd]
    exact hl

theorem cpuCoreHalt_good {pc : HaltPc κ} (h : Good s) (htop : s.top c = .halt pc::rest)
    (hs : cpuCoreHalt s c rest pc = some s') : Good s' := by
  have hh := h.here_rest htop
  have hf := h.control htop
  generalize hF : s.flags c = F at hf
  cases hf with
  | base h => cases h
  | haltOn hpc =>
    obtain ⟨hp,hd,hb⟩ := Flags.mk.inj hF
    rcases hpc with rfl | ⟨k,rfl⟩ | ⟨k,rfl⟩ | rfl
    · simp only [cpuCoreHalt, hd, Bool.false_eq_true, if_false, Option.some.injEq] at hs
      subst hs
      exact h.goto (hF ▸ .haltOn (by simp)) (here_cons rfl rfl hh)
    · cases hs
      refine h.modify _ ?_ (here_cons rfl rfl hh)
      simp only [Core.flags, hp, hd]
      exact .haltBlocked ⟨k,by simp⟩
    · cases hs
      exact h.goto (hF ▸ .base .dispatchHalt) (here_cons rfl rfl (here_cons rfl rfl hh))
    · cases hs
      exact h.goto (hF ▸ .base .body) hh
  | haltBlocked hpc =>
    obtain ⟨hp,hd,hb⟩ := Flags.mk.inj hF
    obtain ⟨k,rfl | rfl | rfl⟩ := hpc
    · cases hs
      have hg := h.goto (l := [.halt (.parked k), .body]) (hF ▸ .haltBlocked ⟨k,by simp⟩)
        (here_cons rfl rfl hh)
      refine hg.same (fun c' => ?_) rfl rfl rfl
      by_cases hc : c' = k
      · subst hc
        simp [State.flags, State.modCore, State.goto, Core.flags]
      · simp [State.flags, State.modCore, State.goto, hc]
    · simp only [cpuCoreHalt] at hs
      split at hs
      · cases hs
      · cases hs
        exact h.goto (hF ▸ .haltBlocked ⟨k,by simp⟩) (here_cons rfl rfl hh)
    · cases hs
      refine sigUnblock_good h ?_ (here_cons rfl rfl hh)
      rw [hp, hd]
      exact .haltOn (by simp)

theorem finishCall_good {f : Frame κ} {was : Bool} {L : Level} (h : Good s)
    (htop : s.top c = f::rest)
    (hF : s.flags c = L.flags) (hb : Base rest L) : Good (s.finishCall c was rest) := by
  have hg := h.goto (c := c) (l := rest) (hF ▸ .base hb) (h.here_rest htop)
  exact ⟨hg.fits,hg.here,hg.live,hg.inj,hg.out⟩

theorem yield_good {was : Bool} {pc : YieldPc} (h : Good s) (htop : s.top c = .yield was pc::rest)
    (hs : yield s c was rest pc = some s') : Good s' := by
  have hh := h.here_rest htop
  have hf := h.control htop
  generalize hF : s.flags c = F at hf
  cases hf with
  | base h => cases h
  | yieldCancel hb =>
    cases hs
    exact h.goto (hF ▸ .setTimer (.yieldOff hb)) (here_cons rfl rfl (here_cons rfl rfl hh))
  | yieldOff hb =>
    cases hs
    exact h.goto (hF ▸ .preemptOff (.yield hb)) (here_cons rfl rfl (here_cons rfl rfl hh))
  | yieldSwitch hb => cases hs
  | yieldRet hb =>
    cases hs
    exact finishCall_good h htop hF hb.back

theorem gain_good {preempt : Bool} {pc : GainPc} (h : Good s)
    (htop : s.top c = .gain preempt pc::rest) :
    Good (gain s c preempt rest pc) := by
  have hh := h.here_rest htop
  have hf := h.control htop
  generalize hF : s.flags c = F at hf
  cases hf with
  | base h => cases h
  | gainPreempt hl hb =>
    cases preempt with
    | true =>
      exact h.goto (hF ▸ .exchangeOn (@Fits.gainTimer _ true _ hl))
        (here_cons rfl rfl (here_cons rfl rfl hh))
    | false =>
      obtain rfl := hb rfl
      exact h.goto (hF ▸ @Fits.gainTimer _ false _ hl) (here_cons rfl rfl hh)
  | gainTimer hl =>
    exact h.goto (hF ▸ .setTimer (.gainRet hl)) (here_cons rfl rfl (here_cons rfl rfl hh))
  | gainRet hl => exact h.goto (hF ▸ hl) hh

theorem bracket_good {f : Bracket} {was : Bool} {pc : BracketPc} (h : Good s)
    (htop : s.top c = .bracket f was pc::rest) (hs : bracket s c f was rest pc = some s') :
    Good s' := by
  have hh := h.here_rest htop
  have hf := h.control htop
  generalize hF : s.flags c = F at hf
  cases hf with
  | base h =>
    cases h
    cases hs
  | bracketOff hb hr =>
    cases hs
    exact h.goto (hF ▸ .preemptOff (.bracket hb hr)) (here_cons rfl rfl (here_cons rfl rfl hh))
  | bracketRet hb =>
    cases hs
    exact finishCall_good h htop hF hb.back

theorem runFrame_good {f : Frame κ} (h : Good s) (htop : s.top c = f::rest)
    (hs : runFrame s c rest f = some s') : Good s' := by
  cases f with
  | body => cases hs
  | plain f was => cases hs
  | bracket f was pc => exact bracket_good h htop hs
  | yield was pc => exact yield_good h htop hs
  | gain preempt pc =>
    cases hs
    exact gain_good h htop
  | setPreemption pc =>
    cases hs
    exact setCorePreemption_good h htop
  | disable pc wrote =>
    cases hs
    exact cpuDisableInterrupts_good h htop
  | enable pc =>
    cases hs
    exact cpuEnableInterrupts_good h htop
  | setTimer usec pc wrote =>
    cases hs
    exact biosSetTimer_good h htop
  | dispatch k is pc =>
    cases hs
    exact dispatchInterrupts_good h htop
  | sigusr1 k o pc =>
    cases hs
    exact sigusr1Handler_good h htop
  | halt pc => exact cpuCoreHalt_good h htop hs

omit [DecidableEq κ] [DecidableEq τ] in
theorem Good.calls {f : Frame κ} (h : Good s) (htop : s.top c = f::rest) (hf : f.calls = true) :
    ∃ L : Level, s.flags c = L.flags ∧ Base (f::rest) L ∧ L≠.sig := by
  have hc := h.control htop
  generalize hF : s.flags c = F at hc
  cases hc with
  | @base _ L hb =>
    refine ⟨L,rfl,hb,?_⟩
    cases hb with
    | body => decide
    | plain hb hL => exact hL
    | inside hb hr => decide
    | dispatchSignal hl hL => cases hf
    | dispatchEnable hl => cases hf
    | dispatchHalt => cases hf
  | _ => cases hf

theorem call_good {g : Frame κ} {f : Call} (h : Good s) (htop : s.top c = g::rest)
    (hg : g.calls = true)
    (hok : CallOk s c (g::rest) f) : Good (s.goto c (f.frame (s.core c).preemption::g::rest)) := by
  obtain ⟨L,hF,hb,hL⟩ := h.calls htop hg
  have hpre : (s.core c).preemption = L.pre := (congrArg Flags.preemption hF).trans L.pre_flags
  have hh : ∀ x∈g::rest, x.Here c := htop ▸ h.here c
  rw [hpre]
  cases f with
  | yield => exact h.goto (hF ▸ .yieldCancel hb) (here_cons rfl rfl hh)
  | bracket f =>
    refine h.goto (hF ▸ .bracketOff hb ?_) (here_cons rfl rfl hh)
    rintro rfl
    have hbody : g::rest = [.body] := hok
    rw [hbody] at hb
    cases hb
    rfl
  | plain f => exact h.goto (hF ▸ .base (.plain hb hL)) (here_cons rfl rfl hh)
  | halt =>
    have hbody : g::rest = [.body] := hok.2
    rw [hbody] at hb hh ⊢
    cases hb
    exact h.goto (hF ▸ .haltOn (by simp)) (here_cons rfl rfl hh)

theorem finish_good (h : Good s) (hs : finish s c (s.top c) = some s') : Good s' := by
  unfold finish at hs
  split at hs
  · rename_i htop
    cases hs
    obtain ⟨L,hF,hb,hL⟩ := h.calls htop rfl
    cases hb with
    | plain hb hL => exact finishCall_good h htop hF hb
  · rename_i f was pre rest htop
    obtain ⟨L,hF,hb,hL⟩ := h.calls htop rfl
    have hh := h.here_rest htop
    cases hb with
    | @inside _ _ L hb hr =>
      split at hs
      · rename_i hpre
        cases hs
        have hon : L.back = .on := by
          cases L with
          | on => rfl
          | sig => rfl
          | off =>
            rcases hpre with hpre | hpre
            · cases hpre
            · cases hr hpre
        refine h.goto (hF ▸ .exchangeOn ?_) (here_cons rfl rfl (here_cons rfl rfl hh))
        rw [← hon]
        exact .bracketRet hb
      · rename_i hpre
        cases hs
        have hoff : L = .off := by
          cases L with
          | off => rfl
          | on => exact absurd (Or.inl rfl) hpre
          | sig => exact absurd (Or.inl rfl) hpre
        subst hoff
        exact h.goto (hF ▸ .bracketRet hb) (here_cons rfl rfl hh)
  · cases hs

omit [DecidableEq κ] [DecidableEq τ] in
theorem Good.switching {was preempt : Bool} (h : Good s)
    (htop : s.top c = .yield was (.switch preempt)::rest) :
    s.flags c = Level.off.flags ∧ ∃ L, Base rest L ∧ was = L.pre ∧ preempt = L.pre := by
  have hf := h.control htop
  generalize hF : s.flags c = F at hf
  cases hf with
  | base h => cases h
  | @yieldSwitch _ L hb => exact ⟨rfl,L,hb,rfl,rfl⟩

theorem stay_good (h : Good s) (hs : stay s c (s.top c) = some s') : Good s' := by
  unfold stay at hs
  split at hs
  · rename_i was preempt rest htop
    cases hs
    obtain ⟨hF,L,hb,rfl,rfl⟩ := h.switching htop
    have hh := h.here_rest htop
    exact h.goto (hF ▸ (Out.yield hb).fits) (here_cons rfl rfl (here_cons rfl rfl hh))
  · cases hs

theorem swap_good {next : Ctx κ τ} (h : Good s)
    (hnext : ∀ f∈s.stack next, ∀ k, f.disables = some k → k = c)
    (hs : cpuSwapContext s c next (s.top c) = some s') : Good s' := by
  unfold cpuSwapContext at hs
  split at hs
  · rename_i was preempt rest htop
    obtain ⟨mask,hmask,hs⟩ := Option.bind_eq_some_iff.mp hs
    split at hs
    · cases hs
      obtain ⟨hF,L,hb,rfl,rfl⟩ := h.switching htop
      obtain ⟨hp,hd,hbl⟩ := Flags.mk.inj hF
      have hout := h.out next mask hmask
      have hlive : ∀ c', s.cur c'≠next := by
        rintro c' rfl
        rw [h.live c'] at hmask
        cases hmask
      have hcur : ∀ c', c'≠c → s.cur c'≠s.cur c := fun c' hc he => hc (h.inj _ _ he)
      refine ⟨fun c' => ?_,fun c' => ?_,fun c' => ?_,fun c1 c2 he => ?_,fun x b hx => ?_⟩
      · by_cases hc : c' = c
        · subst hc
          have hne := hlive c'
          simpa [State.top, State.flags, State.modCore, Core.flags, hp, hd, Ne.symm hne] using
            hout.fits
        · have := h.fits c'
          simpa [State.top, State.flags, State.modCore, hc, hcur c' hc] using this
      · by_cases hc : c' = c
        · subst hc
          have hne := hlive c'
          simp only [State.top, Function.update_self, Function.update_of_ne (Ne.symm hne)]
          intro f hf
          refine ⟨hnext f hf,fun k hk => ?_⟩
          rw [hout.relies_none f hf] at hk
          cases hk
        · have := h.here c'
          simpa [State.top, hc, hcur c' hc] using this
      · by_cases hc : c' = c
        · subst hc
          simp
        · have hl := h.live c'
          simp [hc, hlive c', hcur c' hc, hl]
      · by_cases hc1 : c1 = c <;> by_cases hc2 : c2 = c
        · rw [hc1, hc2]
        · simp [hc1, hc2] at he
          exact absurd he.symm (hlive c2)
        · simp [hc1, hc2] at he
          exact absurd he (hlive c1)
        · simp [hc1, hc2] at he
          exact h.inj _ _ he
      · by_cases hxn : x = next
        · subst hxn
          simp at hx
        · by_cases hxc : x = s.cur c
          · subst hxc
            have hb' : b = true := by
              simpa [hxn, hbl, eq_comm] using hx
            subst hb'
            simpa using Out.yield hb
          · have hx' : s.saved x = some b := by simpa [hxn, hxc] using hx
            simpa [hxc] using h.out x b hx'
    · cases hs
  · cases hs

theorem spawn_good {t : τ} (h : Good s) (hnew : s.stack (.normal t) = []) :
    Good (cpuInitializeContext s c t) := by
  have hcur : ∀ c', s.cur c'≠.normal t := by
    intro c' he
    have hf := h.fits c'
    rw [State.top, he, hnew] at hf
    generalize s.flags c' = F at hf
    cases hf with
    | base hb => cases hb
  refine ⟨fun c' => ?_,fun c' => ?_,fun c' => ?_,h.inj,fun x b hx => ?_⟩
  · have := h.fits c'
    simpa [State.top, State.flags, cpuInitializeContext, hcur c'] using this
  · have := h.here c'
    simpa [State.top, cpuInitializeContext, hcur c'] using this
  · have := h.live c'
    simpa [cpuInitializeContext, hcur c'] using this
  · by_cases hx' : x = .normal t
    · subst hx'
      simpa [cpuInitializeContext] using Out.new
    · have := h.out x b (by simpa [cpuInitializeContext, hx'] using hx)
      simpa [cpuInitializeContext, hx'] using this

omit [DecidableEq τ] in
theorem flags_coreRestart (k c : κ) : (coreRestart s k).flags c = s.flags c := by
  unfold coreRestart
  split
  · by_cases hc : c = k
    · subst hc
      simp [State.flags, State.modCore, Core.flags]
    · simp [State.flags, State.modCore, hc]
  · rfl

omit [DecidableEq τ] in
theorem coreRestart_good (h : Good s) (k : κ) : Good (coreRestart s k) := by
  refine h.same (flags_coreRestart k) ?_ ?_ ?_
  all_goals
    unfold coreRestart
    split <;> rfl

end

omit [DecidableEq τ] in
theorem raiseInterrupt_good (h : Good s) (r : ρ) (x : Raise κ) : Good (raiseInterrupt s r x) := by
  unfold raiseInterrupt
  split
  · have hg := h.modCore x.core (fun k => { k with queued := true }) rfl
    exact ⟨hg.fits,hg.here,hg.live,hg.inj,hg.out⟩
  · have hg := (coreRestart_good h x.core).modCore x.core (fun k => k.markRestarted x) rfl
    exact ⟨hg.fits,hg.here,hg.live,hg.inj,hg.out⟩
  · have hg := h.modCore x.core (fun k => k.markReturned x) rfl
    exact ⟨hg.fits,hg.here,hg.live,hg.inj,hg.out⟩

/-- A step keeps preemption with the threads, unless it moves a thread to another core in
the middle of cpu_disable_interrupts. -/
theorem next_good {a : Label κ τ ρ} (h : Good s)
    (hswap : ∀ c x, a = .swap c x → ∀ f∈s.stack x, ∀ k, f.disables = some k → k = c)
    (hs : next s a = some s') : Good s' := by
  cases a with
  | run c =>
    simp only [next] at hs
    split at hs
    · cases hs
    · exact runFrame_good h ‹_› hs
  | call c f =>
    simp only [next] at hs
    split at hs
    · cases hs
    · split at hs
      · rename_i htop hok
        cases hs
        exact call_good h htop hok.1 hok.2
      · cases hs
  | finish c => exact finish_good h hs
  | swap c x => exact swap_good h (hswap c x rfl) hs
  | stay c => exact stay_good h hs
  | spawn c t =>
    simp only [next] at hs
    split at hs
    · rename_i hnew
      cases hs
      exact spawn_good h hnew.1
    · cases hs
  | deliver c =>
    simp only [next] at hs
    split at hs
    · rename_i hb
      cases hs
      have hf := h.fits c
      rw [State.flags, Core.flags, hb.2] at hf
      exact deliver_good h hf (h.here c)
    · cases hs
  | raise r c i =>
    simp only [next] at hs
    split at hs
    · cases hs
      have hg := h.modCore c (fun k => { k with intpending := Function.update k.intpending i true
        }) rfl
      exact ⟨hg.fits,hg.here,hg.live,hg.inj,hg.out⟩
    · cases hs
  | raiseNext r =>
    obtain ⟨x,-,rfl⟩ := Option.map_eq_some_iff.mp hs
    exact raiseInterrupt_good h r x
  | restartOne =>
    cases hs
    unfold cpuCoreRestartOne
    split
    · exact h
    · rename_i l _
      have hg : Good { s with haltedList := l } := ⟨h.fits,h.here,h.live,h.inj,h.out⟩
      exact coreRestart_good hg _
  | restartAll =>
    cases hs
    exact h.same (fun _ => rfl) rfl rfl rfl

omit [DecidableEq κ] [DecidableEq τ] [DecidableEq ρ] in
theorem boot_good (serial : κ → Bool) : Good (boot serial : State κ τ ρ) := by
  refine ⟨fun c => .base .body,fun c f hf => ?_,fun _ => rfl,fun c c' he => ?_,
    fun x b hx => by cases hx⟩
  · obtain rfl : f = .body := by simpa [State.top, boot] using hf
    simp [Frame.Here, Frame.disables, Frame.relies]
  · simpa [boot] using he

end TinyOS.Bios
