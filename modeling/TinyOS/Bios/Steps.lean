import TinyOS.Bios.Preemption

/-! What the steps of a call do to the stack of its context and to the signal mask of its
core: the frames that replace it hold no core that it did not hold, except the one it
runs on. -/
namespace TinyOS.Bios
variable {κ τ ρ : Type*}

/-- The cores that cpu_disable_interrupts and bios_set_timer hold or have changed. -/
def Frame.leafCores : Frame κ → List κ
  | .disable (.test k) wrote | .disable (.block k) wrote | .disable (.set k) wrote
  | .setTimer _ (.settime k) wrote | .setTimer _ (.clear k) wrote => k::wrote
  | .disable .load wrote | .setTimer _ .load wrote | .setTimer _ .reload wrote
  | .setTimer _ .ret wrote => wrote
  | _ => []

def Frame.loopCore : Frame κ → Option κ
  | .dispatch k _ _ | .sigusr1 k _ _ | .halt (.block k) | .halt (.park k) | .halt (.parked k)
  | .halt (.unblock k) | .halt (.dispatch k) => some k
  | _ => none

def Frame.signal : Frame κ → Option Bool
  | .sigusr1 _ opened _ => some opened
  | _ => none

structure Derived (c : κ) (f : Frame κ) (gs : List (Frame κ)) : Prop where
  disables : ∀ g∈gs.tail, g.disables = none
  leaf : ∀ g∈gs, ∀ k∈g.leafCores, k∈f.leafCores ∨ k = c
  loop : ∀ g∈gs, ∀ k, g.loopCore = some k → f.loopCore = some k ∨ k = c
  signals : (gs.filterMap Frame.signal).Sublist ([f].filterMap Frame.signal)

theorem Derived.nil (c : κ) (f : Frame κ) : Derived c f [] := by
  constructor <;> simp

def Frame.neutral : Frame κ → Bool
  | .disable .load wrote | .setTimer _ .load wrote => wrote.isEmpty
  | .disable _ _ | .setTimer _ _ _ | .dispatch _ _ _ | .sigusr1 _ _ _ => false
  | .halt pc => match pc with
    | .start | .ret => true
    | _ => false
  | _ => true

theorem Frame.of_neutral {f : Frame κ} (h : f.neutral = true) :
    f.disables = none ∧ f.leafCores = [] ∧ f.loopCore = none ∧ f.signal = none := by
  cases f with
  | disable pc wrote => cases pc <;>
      simp_all [Frame.neutral, Frame.disables, leafCores, loopCore, signal]
  | setTimer usec pc wrote => cases pc <;>
      simp_all [Frame.neutral, Frame.disables, leafCores, loopCore, signal]
  | halt pc => cases pc <;> simp_all [Frame.neutral, Frame.disables, leafCores, loopCore, signal]
  | dispatch k is pc => cases h
  | sigusr1 k o pc => cases h
  | _ => simp [Frame.disables, leafCores, loopCore, signal]

theorem Derived.neutral {c : κ} {f : Frame κ} {gs : List (Frame κ)}
    (h : gs.all Frame.neutral = true) :
    Derived c f gs := by
  have h : ∀ g∈gs, g.neutral = true := List.all_eq_true.mp h
  refine ⟨fun g hg => (Frame.of_neutral (h g (List.mem_of_mem_tail hg))).1,fun g hg k hk => ?_,
    fun g hg k hk => ?_,
    ?_⟩
  · rw [(Frame.of_neutral (h g hg)).2.1] at hk
    cases hk
  · rw [(Frame.of_neutral (h g hg)).2.2.1] at hk
    cases hk
  · rw [List.filterMap_eq_nil_iff.mpr fun g hg => (Frame.of_neutral (h g hg)).2.2.2]
    exact List.nil_sublist _

theorem Derived.cons {c : κ} {f g : Frame κ} {gs : List (Frame κ)}
    (hgs : gs.all Frame.neutral = true)
    (hleaf : ∀ k∈g.leafCores, k∈f.leafCores ∨ k = c)
    (hloop : ∀ k, g.loopCore = some k → f.loopCore = some k ∨ k = c)
    (hsig : ∀ o, g.signal = some o → f.signal = some o) : Derived c f (g::gs) := by
  have h := Derived.neutral (c := c) (f := f) hgs
  have hn : ∀ g∈gs, g.neutral = true := List.all_eq_true.mp hgs
  refine ⟨fun x hx => (Frame.of_neutral (hn x hx)).1,List.forall_mem_cons.mpr ⟨hleaf,h.leaf⟩,
    List.forall_mem_cons.mpr ⟨hloop,h.loop⟩,?_⟩
  have hnil : gs.filterMap Frame.signal = [] :=
    List.filterMap_eq_nil_iff.mpr fun g hg => (Frame.of_neutral (hn g hg)).2.2.2
  cases hg : g.signal with
  | none => simp [List.filterMap_cons, hg, hnil]
  | some o => simp [hg, hnil, hsig o hg]

variable [DecidableEq κ] [DecidableEq τ] [DecidableEq ρ]

inductive Goes (s s' : State κ τ ρ) (c : κ) (f : Frame κ) (rest : List (Frame κ)) : Prop where
  | goto (gs : List (Frame κ)) (hd : Derived c f gs) (top : s'.stack (s.cur c) = gs++rest)
      (mask : (s'.core c).blocked = true ∨ (s'.core c).blocked = (s.core c).blocked)
  | save (old : Bool) (top : s'.stack (s.cur c) = saveResult old rest)
      (mask : (s'.core c).blocked = (s.core c).blocked)
  | unblock (gs : List (Frame κ)) (hd : Derived c f gs)
      (top : s'.stack (s.cur c) = unblocked (gs++rest))
  | deliver (gs : List (Frame κ)) (hd : Derived c f gs) (hgs : ∀ g∈gs, g.disables = none)
      (top : s'.stack (s.cur c) = .sigusr1 c false .enter::unblocked (gs++rest))
      (mask : (s'.core c).blocked = true)
  | sigreturn (k : κ) (o : Bool) (hf : f = .sigusr1 k o .ret) (top : s'.stack (s.cur c) = rest)

structure Elsewhere (s s' : State κ τ ρ) (c : κ) : Prop where
  cur : s'.cur = s.cur
  saved : s'.saved = s.saved
  stack : ∀ x, x≠s.cur c → s'.stack x = s.stack x
  mask : ∀ c', c'≠c → (s'.core c').blocked = (s.core c').blocked

variable {s s' : State κ τ ρ} {c : κ} {l rest : List (Frame κ)}

section
omit [DecidableEq ρ]

theorem elsewhere_goto : Elsewhere s (s.goto c l) c :=
  ⟨rfl,rfl,fun x hx => by simp [State.goto, hx],fun _ _ => rfl⟩

theorem elsewhere_modCore (k : κ) (f : Core → Core)
    (hf : k = c ∨ (f (s.core k)).blocked = (s.core k).blocked) :
    Elsewhere s ((s.modCore k f).goto c l) c := by
  refine ⟨rfl,rfl,fun x hx => by simp [State.goto, State.modCore, hx],fun c' hc => ?_⟩
  by_cases hk : c' = k
  · subst hk
    rcases hf with rfl | hf
    · exact absurd rfl hc
    · simpa [State.goto, State.modCore] using hf
  · simp [State.goto, State.modCore, hk]

theorem steps_goto {f : Frame κ} {r : List (Frame κ)} (gs : List (Frame κ)) (hd : Derived c f gs) :
    Goes s (s.goto c (gs++r)) c f r ∧ Elsewhere s (s.goto c (gs++r)) c :=
  ⟨.goto gs hd (by simp [State.goto]) (Or.inr rfl),elsewhere_goto⟩

theorem steps_modCore {f : Frame κ} (gs : List (Frame κ)) (hd : Derived c f gs) (k : κ)
    (m : Core → Core)
    (hm : k = c ∧ (m (s.core k)).blocked = true ∨ (m (s.core k)).blocked = (s.core k).blocked) :
    Goes s ((s.modCore k m).goto c (gs++rest)) c f rest ∧
      Elsewhere s ((s.modCore k m).goto c (gs++rest)) c := by
  refine ⟨.goto gs hd (by simp [State.goto, State.modCore]) ?_,elsewhere_modCore k m
    (hm.imp_left And.left)⟩
  by_cases hk : c = k
  · subst hk
    rcases hm with ⟨-,hm⟩ | hm
    · exact Or.inl (by simpa [State.goto, State.modCore] using hm)
    · exact Or.inr (by simpa [State.goto, State.modCore] using hm)
  · exact Or.inr (by simp [State.goto, State.modCore, hk])

omit [DecidableEq κ] [DecidableEq τ] in
theorem steps_same {s1 : State κ τ ρ} {f : Frame κ} (h : Goes s s1 c f rest ∧ Elsewhere s s1 c)
    (hcore : s'.core = s1.core) (hcur : s'.cur = s1.cur) (hstack : s'.stack = s1.stack)
    (hsaved : s'.saved = s1.saved) : Goes s s' c f rest ∧ Elsewhere s s' c := by
  obtain ⟨hg,he⟩ := h
  refine ⟨?_,hcur.trans he.cur,hsaved.trans he.saved,?_,?_⟩
  · cases hg with
    | goto gs hd top mask => exact .goto gs hd (by rw [hstack, top]) (by rwa [hcore])
    | save old top mask => exact .save old (by rw [hstack, top]) (by rwa [hcore])
    | unblock gs hd top => exact .unblock gs hd (by rw [hstack, top])
    | deliver gs hd hgs top mask =>
      exact .deliver gs hd hgs (by rw [hstack, top]) (by rwa [hcore])
    | sigreturn k o hf top => exact .sigreturn k o hf (by rw [hstack, top])
  · rw [hstack]
    exact he.stack
  · rw [hcore]
    exact he.mask

theorem steps_unblock {f : Frame κ} (gs : List (Frame κ)) (hd : Derived c f gs)
    (hgs : ∀ g∈gs, g.disables = none) :
    Goes s (s.sigUnblock c (gs++rest)) c f rest ∧ Elsewhere s (s.sigUnblock c (gs++rest)) c := by
  unfold State.sigUnblock
  split
  · refine ⟨.deliver gs hd hgs ?_ ?_,elsewhere_modCore c _ (Or.inl rfl)⟩
    all_goals simp [State.deliver, State.goto, State.modCore]
  · refine ⟨.unblock gs hd ?_,elsewhere_modCore c _ (Or.inl rfl)⟩
    simp [State.goto, State.modCore]

theorem setCorePreemption_steps (pc : PreemptionPc) :
    Goes s (setCorePreemption s c rest pc) c (.setPreemption pc) rest ∧
      Elsewhere s (setCorePreemption s c rest pc) c := by
  cases pc with
  | disable => exact steps_goto [.disable .load [], .setPreemption .exchangeOff] (.neutral rfl)
  | exchangeOff =>
    refine ⟨.save (s.core c).preemption ?_ ?_,elsewhere_modCore c _ (Or.inl rfl)⟩
    all_goals simp [setCorePreemption, State.goto, State.modCore]
  | exchangeOn => exact steps_modCore [.setPreemption .enable] (.neutral rfl) c _ (Or.inr rfl)
  | enable => exact steps_goto [.enable .load, .setPreemption .done] (.neutral rfl)
  | done => exact steps_goto [] (.nil _ _)

theorem cpuDisableInterrupts_steps (pc : DisablePc κ) (wrote : List κ) :
    Goes s (cpuDisableInterrupts s c wrote rest pc) c (.disable pc wrote) rest ∧
      Elsewhere s (cpuDisableInterrupts s c wrote rest pc) c := by
  cases pc with
  | load =>
    refine steps_goto [.disable (.test c) wrote]
      (.cons rfl ?_ (by simp [Frame.loopCore]) (by simp [Frame.signal]))
    simp [Frame.leafCores, or_comm]
  | test k =>
    simp only [cpuDisableInterrupts]
    split
    · exact steps_same (steps_goto [] (.nil _ _)) rfl rfl rfl rfl
    · refine steps_goto [.disable (.block k) wrote]
        (.cons rfl ?_ (by simp [Frame.loopCore]) (by simp [Frame.signal]))
      exact fun x hx => Or.inl hx
  | block k =>
    refine steps_modCore [.disable (.set k) (wrote++[c])]
      (.cons rfl ?_ (by simp [Frame.loopCore]) (by simp [Frame.signal])) c _ (Or.inl ⟨rfl,rfl⟩)
    simp [Frame.leafCores, or_assoc]
  | set k => exact steps_same (steps_modCore [] (.nil _ _) k _ (Or.inr rfl)) rfl rfl rfl rfl

theorem cpuEnableInterrupts_steps (pc : EnablePc κ) :
    Goes s (cpuEnableInterrupts s c rest pc) c (.enable pc) rest ∧
      Elsewhere s (cpuEnableInterrupts s c rest pc) c := by
  cases pc with
  | load => exact steps_goto [.enable (.test c)] (.neutral rfl)
  | test k =>
    simp only [cpuEnableInterrupts]
    split
    · exact steps_goto [.enable (.clear k)] (.neutral rfl)
    · exact steps_goto [] (.nil _ _)
  | clear k => exact steps_modCore [.enable .unblock] (.neutral rfl) k _ (Or.inr rfl)
  | unblock => exact steps_unblock [.enable .dispatch] (.neutral rfl) (by simp [Frame.disables])
  | dispatch =>
    refine steps_goto [.dispatch c Interrupt.all .test, .enable .ret]
      (.cons rfl (by simp [Frame.leafCores]) ?_ (by simp [Frame.signal]))
    simp [Frame.loopCore, eq_comm]
  | ret => exact steps_goto [] (.nil _ _)

theorem biosSetTimer_steps (usec : Nat) (pc : TimerPc κ) (wrote : List κ) :
    Goes s (biosSetTimer s c usec wrote rest pc) c (.setTimer usec pc wrote) rest ∧
      Elsewhere s (biosSetTimer s c usec wrote rest pc) c := by
  cases pc with
  | load =>
    refine steps_goto [.setTimer usec (.settime c) wrote]
      (.cons rfl ?_ (by simp [Frame.loopCore]) (by simp [Frame.signal]))
    simp [Frame.leafCores, or_comm]
  | settime k =>
    refine steps_modCore [.setTimer usec .reload (wrote++[k])]
      (.cons rfl ?_ (by simp [Frame.loopCore]) (by simp [Frame.signal])) k _ (Or.inr rfl)
    simp +contextual [Frame.leafCores, or_imp]
  | reload =>
    refine steps_goto [.setTimer usec (.clear c) wrote]
      (.cons rfl ?_ (by simp [Frame.loopCore]) (by simp [Frame.signal]))
    simp [Frame.leafCores, or_comm]
  | clear k =>
    refine steps_modCore [.setTimer usec .ret (wrote++[k])]
      (.cons rfl ?_ (by simp [Frame.loopCore]) (by simp [Frame.signal])) k _ (Or.inr rfl)
    simp +contextual [Frame.leafCores, or_imp]
  | ret => exact steps_same (steps_goto [] (.nil _ _)) rfl rfl rfl rfl

theorem dispatchInterrupts_steps (k : κ) (is : List Interrupt) (pc : DispatchPc) :
    Goes s (dispatchInterrupts s c k rest is pc) c (.dispatch k is pc) rest ∧
      Elsewhere s (dispatchInterrupts s c k rest is pc) c := by
  have hloop : ∀ is' pc', Derived c (.dispatch k is pc) [.dispatch k is' pc'] := fun is' pc' =>
    .cons rfl (by simp [Frame.leafCores]) (fun x hx => Or.inl hx) (by simp [Frame.signal])
  cases is with
  | nil => exact steps_goto [] (.nil _ _)
  | cons i is =>
    cases pc with
    | test =>
      simp only [dispatchInterrupts]
      split
      · exact steps_goto [] (.nil _ _)
      · exact steps_goto [.dispatch k (i::is) .pending] (hloop _ _)
    | pending =>
      simp only [dispatchInterrupts]
      split
      · exact steps_goto [.dispatch k (i::is) .clear] (hloop _ _)
      · exact steps_goto [.dispatch k is .test] (hloop _ _)
    | clear => exact steps_modCore [.dispatch k (i::is) .call] (hloop _ _) k _ (Or.inr rfl)
    | call =>
      simp only [dispatchInterrupts]
      split
      · exact steps_goto [.dispatch k is .test] (hloop _ _)
      · rename_i handler _
        have hd : Derived c (.dispatch k (i::is) .call)
            (handler.frames (s.core c).preemption++[.dispatch k is .test]) := by
          cases handler <;> constructor <;>
            simp [Handler.frames, Frame.disables, Frame.leafCores, Frame.loopCore,
              List.filterMap_cons, Frame.signal]
        refine steps_same (steps_goto (r := rest) _ hd) rfl rfl ?_ rfl
        simp

theorem sigusr1Handler_steps (k : κ) (o : Bool) (pc : SignalPc) :
    Goes s (sigusr1Handler s c k o rest pc) c (.sigusr1 k o pc) rest ∧
      Elsewhere s (sigusr1Handler s c k o rest pc) c := by
  cases pc with
  | enter =>
    simp only [sigusr1Handler]
    split
    · exact steps_goto [.sigusr1 k o .ret]
        (.cons rfl (by simp [Frame.leafCores]) (fun x hx => Or.inl hx) (fun _ ho => ho))
    · refine steps_goto [.dispatch k Interrupt.all .test, .sigusr1 k o .ret] ?_
      constructor <;> simp [Frame.disables, Frame.leafCores, Frame.loopCore, List.filterMap_cons,
        Frame.signal]
  | ret =>
    refine ⟨.sigreturn k o rfl ?_,elsewhere_modCore c _ (Or.inl rfl)⟩
    simp [sigusr1Handler, State.goto, State.modCore]

theorem cpuCoreHalt_steps {pc : HaltPc κ} (hs : cpuCoreHalt s c rest pc = some s') :
    Goes s s' c (.halt pc) rest ∧ Elsewhere s s' c := by
  have hhalt : ∀ {pc pc' : HaltPc κ}, (∀ k, Frame.loopCore (.halt pc') = some k →
      Frame.loopCore (.halt pc) = some k ∨ k = c) → Derived c (.halt pc) [.halt pc'] := fun hloop =>
    .cons rfl (by simp [Frame.leafCores]) hloop (by simp [Frame.signal])
  cases pc with
  | start =>
    simp only [cpuCoreHalt] at hs
    split at hs
    · cases hs
    · cases hs
      exact steps_goto [.halt (.block c)] (hhalt (by simp [Frame.loopCore, eq_comm]))
  | block k =>
    cases hs
    exact steps_modCore (f := .halt (.block k)) [.halt (.park k)] (hhalt fun x hx => Or.inl hx) c
      (fun x => { x with blocked := true }) (Or.inl ⟨rfl,rfl⟩)
  | park k =>
    cases hs
    exact steps_same (steps_modCore (f := .halt (.park k)) [.halt (.parked k)]
      (hhalt fun x hx => Or.inl hx) k (fun x => { x with halted := true }) (Or.inr rfl)) rfl rfl
        rfl rfl
  | parked k =>
    simp only [cpuCoreHalt] at hs
    split at hs
    · cases hs
    · cases hs
      exact steps_goto [.halt (.unblock k)] (hhalt fun x hx => Or.inl hx)
  | unblock k =>
    cases hs
    exact steps_unblock [.halt (.dispatch k)] (hhalt fun x hx => Or.inl hx)
      (by simp [Frame.disables])
  | dispatch k =>
    cases hs
    exact steps_goto [.dispatch k Interrupt.all .test, .halt .ret]
      (.cons rfl (by simp [Frame.leafCores]) (fun x hx => Or.inl hx) (by simp [Frame.signal]))
  | ret =>
    cases hs
    exact steps_goto [] (.nil _ _)

theorem yield_steps {was : Bool} {pc : YieldPc} (hs : yield s c was rest pc = some s') :
    Goes s s' c (.yield was pc) rest ∧ Elsewhere s s' c := by
  cases pc with
  | cancel =>
    cases hs
    exact steps_goto [.setTimer 0 .load [], .yield was .off] (.neutral rfl)
  | off =>
    cases hs
    exact steps_goto [.setPreemption .disable, .yield was .save] (.neutral rfl)
  | save => cases hs
  | switch preempt => cases hs
  | ret =>
    cases hs
    exact steps_same (steps_goto [] (.nil _ _)) rfl rfl rfl rfl

theorem gain_steps (preempt : Bool) (pc : GainPc) :
    Goes s (gain s c preempt rest pc) c (.gain preempt pc) rest ∧
    Elsewhere s (gain s c preempt rest pc) c := by
  cases pc with
  | preempt =>
    cases preempt with
    | true => exact steps_goto [.setPreemption .exchangeOn, .gain true .timer] (.neutral rfl)
    | false => exact steps_goto [.gain false .timer] (.neutral rfl)
  | timer => exact steps_goto [.setTimer QUANTUM .load [], .gain preempt .ret] (.neutral rfl)
  | ret => exact steps_goto [] (.nil _ _)

theorem bracket_steps {f : Bracket} {was : Bool} {pc : BracketPc}
    (hs : bracket s c f was rest pc = some s') :
    Goes s s' c (.bracket f was pc) rest ∧ Elsewhere s s' c := by
  cases pc with
  | off =>
    cases hs
    exact steps_goto [.setPreemption .disable, .bracket f was .save] (.neutral rfl)
  | save => cases hs
  | inside pre => cases hs
  | ret =>
    cases hs
    exact steps_same (steps_goto [] (.nil _ _)) rfl rfl rfl rfl

theorem runFrame_steps {f : Frame κ} (hs : runFrame s c rest f = some s') :
    Goes s s' c f rest ∧ Elsewhere s s' c := by
  cases f with
  | body => cases hs
  | plain f was => cases hs
  | bracket f was pc => exact bracket_steps hs
  | yield was pc => exact yield_steps hs
  | gain preempt pc =>
    cases hs
    exact gain_steps preempt pc
  | setPreemption pc =>
    cases hs
    exact setCorePreemption_steps pc
  | disable pc wrote =>
    cases hs
    exact cpuDisableInterrupts_steps pc wrote
  | enable pc =>
    cases hs
    exact cpuEnableInterrupts_steps pc
  | setTimer usec pc wrote =>
    cases hs
    exact biosSetTimer_steps usec pc wrote
  | dispatch k is pc =>
    cases hs
    exact dispatchInterrupts_steps k is pc
  | sigusr1 k o pc =>
    cases hs
    exact sigusr1Handler_steps k o pc
  | halt pc => exact cpuCoreHalt_steps hs

end

inductive Change (s s' : State κ τ ρ) : Label κ τ ρ → Prop where
  /-- The call on top of a stack goes on. -/
  | goes {a : Label κ τ ρ} (c : κ) (f : Frame κ) (rest : List (Frame κ)) (top : s.top c = f::rest)
      (hg : Goes s s' c f rest) (he : Elsewhere s s' c)
      (ground : f = .body → ∃ g, s'.stack (s.cur c) = g::f::rest) : Change s s' a
  | deliver (c : κ) (free : (s.core c).blocked = false) (mask : (s'.core c).blocked = true)
      (top : s'.stack (s.cur c) = .sigusr1 c false .enter::s.top c) (he : Elsewhere s s' c) :
      Change s s' (.deliver c)
  | swap (c : κ) (x : Ctx κ τ) (was preempt mask : Bool) (rest : List (Frame κ))
      (top : s.top c = .yield was (.switch preempt)::rest) (saved : s.saved x = some mask)
      (on : x.runsOn c = true) (cur : s'.cur = Function.update s.cur c x)
      (stack : s'.stack = Function.update s.stack (s.cur c)
        (.gain preempt .preempt::.yield was .ret::rest))
      (saved' : s'.saved =
        Function.update (Function.update s.saved (s.cur c) (some (s.core c).blocked)) x none)
      (mask' : ∀ c', (s'.core c').blocked = if c' = c then mask else (s.core c').blocked) :
      Change s s' (.swap c x)
  | spawn (c : κ) (t : τ) (new : s.stack (.normal t) = []) (hs : s' = cpuInitializeContext s c t) :
      Change s s' (.spawn c t)
  | same {a : Label κ τ ρ} (cur : s'.cur = s.cur) (stack : s'.stack = s.stack)
      (saved : s'.saved = s.saved)
      (mask : ∀ c, (s'.core c).blocked = (s.core c).blocked) : Change s s' a

omit [DecidableEq τ] [DecidableEq ρ] in
theorem modCore_mask (k : κ) (f : Core → Core) (hf : (f (s.core k)).blocked = (s.core k).blocked)
    (c : κ) :
    ((s.modCore k f).core c).blocked = (s.core c).blocked := by
  by_cases hc : c = k
  · subst hc
    simpa [State.modCore] using hf
  · simp [State.modCore, hc]

omit [DecidableEq τ] [DecidableEq ρ] in
theorem coreRestart_mask (k c : κ) : ((coreRestart s k).core c).blocked = (s.core c).blocked := by
  unfold coreRestart
  split
  · exact modCore_mask (s := s) k (fun x => { x with halted := false }) rfl c
  · rfl

omit [DecidableEq τ] [DecidableEq ρ] in
theorem coreRestart_contexts (k : κ) :
    (coreRestart s k).cur = s.cur ∧ (coreRestart s k).stack = s.stack ∧
    (coreRestart s k).saved = s.saved := by
  unfold coreRestart
  split <;> exact ⟨rfl,rfl,rfl⟩

theorem raiseInterrupt_change (r : ρ) (x : Raise κ) {a : Label κ τ ρ} :
    Change s (raiseInterrupt s r x) a := by
  unfold raiseInterrupt
  split
  · exact .same rfl rfl rfl (modCore_mask (s := s) x.core (fun k => { k with queued := true }) rfl)
  · obtain ⟨hcur,hstack,hsaved⟩ := coreRestart_contexts (s := s) x.core
    refine .same hcur hstack hsaved fun c => ?_
    exact (modCore_mask (s := coreRestart s x.core) x.core (fun k => k.markRestarted x) rfl c).trans
      (coreRestart_mask x.core c)
  · exact .same rfl rfl rfl (modCore_mask (s := s) x.core (fun k => k.markReturned x) rfl)

omit [DecidableEq ρ] in
theorem finish_steps (hs : finish s c (s.top c) = some s') {a : Label κ τ ρ} : Change s s' a := by
  unfold finish at hs
  split at hs
  · rename_i f was rest htop
    cases hs
    have h := steps_goto (s := s) (c := c) (f := .plain f was) (r := rest) [] (.nil _ _)
    have h' : Goes s (s.finishCall c was rest) c (.plain f was) rest ∧
        Elsewhere s (s.finishCall c was rest) c := steps_same h rfl rfl rfl rfl
    exact .goes c _ _ htop h'.1 h'.2 (fun he => by cases he)
  · rename_i f was pre rest htop
    split at hs
    all_goals cases hs
    · have h := steps_goto (s := s) (c := c) (f := .bracket f was (.inside pre)) (r := rest)
        [.setPreemption .exchangeOn, .bracket f was .ret] (.neutral rfl)
      exact .goes c _ _ htop h.1 h.2 (fun he => by cases he)
    · have h := steps_goto (s := s) (c := c) (f := .bracket f was (.inside pre)) (r := rest)
        [.bracket f was .ret] (.neutral rfl)
      exact .goes c _ _ htop h.1 h.2 (fun he => by cases he)
  · cases hs

omit [DecidableEq κ] in
theorem neutral_of_calls {f : Frame κ} (h : f.calls = true) : f.neutral = true := by
  cases f <;> first | rfl | cases h

omit [DecidableEq κ] in
theorem neutral_frame (f : Call) (was : Bool) : (f.frame was : Frame κ).neutral = true := by
  cases f <;> rfl

theorem next_change {a : Label κ τ ρ} (hs : next s a = some s') : Change s s' a := by
  cases a with
  | run c =>
    simp only [next] at hs
    split at hs
    · cases hs
    · rename_i f rest htop
      have h := runFrame_steps hs
      refine .goes c f rest htop h.1 h.2 fun he => ?_
      subst he
      cases hs
  | call c f =>
    simp only [next] at hs
    split at hs
    · cases hs
    · rename_i g rest htop
      split at hs
      · rename_i hok
        cases hs
        have hn := neutral_of_calls hok.1
        have h := steps_goto (s := s) (c := c) (f := g) (r := rest)
          [f.frame (s.core c).preemption, g] (.neutral (by simp [hn, neutral_frame]))
        exact .goes c g rest htop h.1 h.2
          fun _ => ⟨f.frame (s.core c).preemption,by simp [State.goto]⟩
      · cases hs
  | finish c => exact finish_steps hs
  | stay c =>
    have hs : stay s c (s.top c) = some s' := hs
    unfold stay at hs
    split at hs
    · rename_i was preempt rest htop
      cases hs
      have h := steps_goto (s := s) (c := c) (f := .yield was (.switch preempt)) (r := rest)
        [.gain preempt .preempt, .yield was .ret] (.neutral rfl)
      exact .goes c _ _ htop h.1 h.2 (fun he => by cases he)
    · cases hs
  | swap c x =>
    have hs : cpuSwapContext s c x (s.top c) = some s' := hs
    unfold cpuSwapContext at hs
    split at hs
    · rename_i was preempt rest htop
      obtain ⟨mask,hmask,hs⟩ := Option.bind_eq_some_iff.mp hs
      split at hs
      · rename_i hon
        cases hs
        refine .swap c x was preempt mask rest htop hmask hon.1 rfl rfl rfl fun c' => ?_
        by_cases hc : c' = c
        · subst hc
          simp [State.modCore]
        · simp [State.modCore, hc]
      · cases hs
    · cases hs
  | spawn c t =>
    simp only [next] at hs
    split at hs
    · rename_i hnew
      cases hs
      exact .spawn c t hnew.1 rfl
    · cases hs
  | deliver c =>
    simp only [next] at hs
    split at hs
    · rename_i hb
      cases hs
      refine .deliver c hb.2 ?_ ?_ (elsewhere_modCore c _ (Or.inl rfl))
      all_goals simp [State.deliver, State.modCore, State.goto]
    · cases hs
  | raise r c i =>
    simp only [next] at hs
    split at hs
    · cases hs
      exact .same rfl rfl rfl
        (modCore_mask (s := s) c
          (fun k => { k with intpending := Function.update k.intpending i true }) rfl)
    · cases hs
  | raiseNext r =>
    obtain ⟨x,-,rfl⟩ := Option.map_eq_some_iff.mp hs
    exact raiseInterrupt_change r x
  | restartOne =>
    cases hs
    unfold cpuCoreRestartOne
    split
    · exact .same rfl rfl rfl fun _ => rfl
    · rename_i c l _
      obtain ⟨hcur,hstack,hsaved⟩ := coreRestart_contexts (s := { s with haltedList := l }) c
      exact .same hcur hstack hsaved (coreRestart_mask (s := { s with haltedList := l }) c)
  | restartAll =>
    cases hs
    exact .same rfl rfl rfl fun _ => rfl

inductive Logs (s s' : State κ τ ρ) : Label κ τ ρ → Prop where
  | none {a : Label κ τ ρ} (done : s'.done = s.done) (entries : s'.entries = s.entries)
      (returns : s'.returns = s.returns) : Logs s s' a
  /-- A function of the kernel returns. -/
  | returns {a : Label κ τ ρ} (c : κ) (f : Frame κ) (rest : List (Frame κ)) (was : Bool)
      (top : s.top c = f::rest)
      (hf : f = .yield was .ret ∨ (∃ g, f = .bracket g was .ret) ∨ ∃ g, f = .plain g was)
      (done : s'.done = s.done) (entries : s'.entries = s.entries)
      (returns : s'.returns = s.returns++[⟨was,(s.core c).preemption⟩]) : Logs s s' a
  /-- A handler is entered. -/
  | enters (c k : κ) (i : Interrupt) (is : List Interrupt) (rest : List (Frame κ))
      (top : s.top c = .dispatch k (i::is) .call::rest)
        (handler : ((s.core k).intvec i).isSome = true)
      (done : s'.done = s.done)
      (entries : s'.entries = s.entries++[⟨k,c,i,(s.core c).intDisabled,(s.core c).blocked⟩])
      (returns : s'.returns = s.returns) : Logs s s' (.run c)
  /-- cpu_disable_interrupts or bios_set_timer returns. -/
  | leaf {a : Label κ τ ρ} (c : κ) (f : Frame κ) (rest : List (Frame κ)) (d : Done κ)
      (top : s.top c = f::rest)
      (top' : s'.top c = rest) (core : d.core = c) (wrote : ∀ k∈d.wrote, k∈f.leafCores ∨ k = c)
      (call : d.call = .cpuDisableInterrupts → ∃ pc w, f = .disable pc w)
      (flags : d.intDisabled = (s'.core c).intDisabled ∧ d.blocked = (s'.core c).blocked)
      (done : s'.done = s.done++[d]) (entries : s'.entries = s.entries)
        (returns : s'.returns = s.returns) :
      Logs s s' a

section
omit [DecidableEq ρ]

theorem finishLeaf_logs {a : Label κ τ ρ} {f : Frame κ} {s1 : State κ τ ρ} {call : Leaf}
    {wrote : List κ}
    (htop : s.top c = f::rest) (hwrote : ∀ k∈wrote, k∈f.leafCores ∨ k = c)
    (hcall : call = .cpuDisableInterrupts → ∃ pc w, f = .disable pc w) (hdone : s1.done = s.done)
    (hentries : s1.entries = s.entries) (hreturns : s1.returns = s.returns) :
    Logs s (s1.finishLeaf c call wrote rest) a := by
  refine .leaf c f rest ⟨call,wrote,c,(s1.core c).intDisabled,(s1.core c).blocked⟩ htop ?_ rfl
    hwrote hcall
    ⟨rfl,rfl⟩ ?_ hentries hreturns
  · simp [State.top, State.finishLeaf, State.goto]
  · rw [← hdone]
    rfl

theorem sigUnblock_logs {a : Label κ τ ρ} : Logs s (s.sigUnblock c l) a := by
  unfold State.sigUnblock
  split <;> exact .none rfl rfl rfl

theorem runFrame_logs {f : Frame κ} (htop : s.top c = f::rest)
    (hs : runFrame s c rest f = some s') :
    Logs s s' (.run c) := by
  cases f with
  | body => cases hs
  | plain f was => cases hs
  | bracket f was pc =>
    cases pc with
    | ret =>
      cases hs
      exact .returns c _ rest was htop (Or.inr (Or.inl ⟨f,rfl⟩)) rfl rfl rfl
    | _ =>
      cases hs
      try exact .none rfl rfl rfl
  | yield was pc =>
    cases pc with
    | ret =>
      cases hs
      exact .returns c _ rest was htop (Or.inl rfl) rfl rfl rfl
    | _ =>
      cases hs
      try exact .none rfl rfl rfl
  | gain preempt pc =>
    cases hs
    cases pc with
    | preempt => cases preempt <;> exact .none rfl rfl rfl
    | _ => exact .none rfl rfl rfl
  | setPreemption pc =>
    cases hs
    cases pc <;> exact .none rfl rfl rfl
  | disable pc wrote =>
    cases hs
    cases pc with
    | load => exact .none rfl rfl rfl
    | test k =>
      simp only [cpuDisableInterrupts]
      split
      · exact finishLeaf_logs htop (by simp +contextual [Frame.leafCores]) (fun _ => ⟨_,_,rfl⟩) rfl
          rfl rfl
      · exact .none rfl rfl rfl
    | block k => exact .none rfl rfl rfl
    | set k =>
      refine finishLeaf_logs htop (fun x hx => Or.inl ?_) (fun _ => ⟨_,_,rfl⟩) rfl rfl rfl
      simpa [Frame.leafCores, or_comm] using hx
  | enable pc =>
    cases hs
    cases pc with
    | test k =>
      simp only [cpuEnableInterrupts]
      split <;> exact .none rfl rfl rfl
    | unblock => exact sigUnblock_logs
    | _ => exact .none rfl rfl rfl
  | setTimer usec pc wrote =>
    cases hs
    cases pc with
    | ret => exact finishLeaf_logs htop (fun x hx => Or.inl hx) (by simp) rfl rfl rfl
    | _ => exact .none rfl rfl rfl
  | dispatch k is pc =>
    cases hs
    cases is with
    | nil => exact .none rfl rfl rfl
    | cons i is =>
      cases pc with
      | test =>
        simp only [dispatchInterrupts]
        split <;> exact .none rfl rfl rfl
      | pending =>
        simp only [dispatchInterrupts]
        split <;> exact .none rfl rfl rfl
      | clear => exact .none rfl rfl rfl
      | call =>
        simp only [dispatchInterrupts]
        split
        · exact .none rfl rfl rfl
        · rename_i hh
          exact .enters c k i is rest htop (by rw [hh]; rfl) rfl rfl rfl
  | sigusr1 k o pc =>
    cases hs
    cases pc with
    | enter =>
      simp only [sigusr1Handler]
      split <;> exact .none rfl rfl rfl
    | ret => exact .none rfl rfl rfl
  | halt pc =>
    cases pc with
    | start =>
      simp only [runFrame, cpuCoreHalt] at hs
      split at hs
      · cases hs
      · cases hs
        exact .none rfl rfl rfl
    | parked k =>
      simp only [runFrame, cpuCoreHalt] at hs
      split at hs
      · cases hs
      · cases hs
        exact .none rfl rfl rfl
    | unblock k =>
      cases hs
      exact sigUnblock_logs
    | _ =>
      cases hs
      exact .none rfl rfl rfl

omit [DecidableEq τ] in
theorem coreRestart_logs (k : κ) : (coreRestart s k).done = s.done ∧
    (coreRestart s k).entries = s.entries ∧ (coreRestart s k).returns = s.returns := by
  unfold coreRestart
  split <;> exact ⟨rfl,rfl,rfl⟩

end

theorem next_logs {a : Label κ τ ρ} (hs : next s a = some s') : Logs s s' a := by
  cases a with
  | run c =>
    simp only [next] at hs
    split at hs
    · cases hs
    · exact runFrame_logs ‹_› hs
  | call c f =>
    simp only [next] at hs
    split at hs
    · cases hs
    · split at hs
      · cases hs
        exact .none rfl rfl rfl
      · cases hs
  | finish c =>
    have hs : finish s c (s.top c) = some s' := hs
    unfold finish at hs
    split at hs
    · rename_i f was rest htop
      cases hs
      exact .returns c _ rest was htop (Or.inr (Or.inr ⟨f,rfl⟩)) rfl rfl rfl
    · split at hs <;> cases hs <;> exact .none rfl rfl rfl
    · cases hs
  | swap c x =>
    have hs : cpuSwapContext s c x (s.top c) = some s' := hs
    unfold cpuSwapContext at hs
    split at hs
    · obtain ⟨mask,-,hs⟩ := Option.bind_eq_some_iff.mp hs
      split at hs
      · cases hs
        exact .none rfl rfl rfl
      · cases hs
    · cases hs
  | stay c =>
    have hs : stay s c (s.top c) = some s' := hs
    unfold stay at hs
    split at hs
    · cases hs
      exact .none rfl rfl rfl
    · cases hs
  | spawn c t =>
    simp only [next] at hs
    split at hs <;> cases hs
    exact .none rfl rfl rfl
  | deliver c =>
    simp only [next] at hs
    split at hs <;> cases hs
    exact .none rfl rfl rfl
  | raise r c i =>
    simp only [next] at hs
    split at hs <;> cases hs
    exact .none rfl rfl rfl
  | raiseNext r =>
    obtain ⟨x,-,rfl⟩ := Option.map_eq_some_iff.mp hs
    unfold raiseInterrupt
    split
    · exact .none rfl rfl rfl
    · obtain ⟨h1,h2,h3⟩ := coreRestart_logs (s := s) x.core
      exact .none h1 h2 h3
    · exact .none rfl rfl rfl
  | restartOne =>
    cases hs
    unfold cpuCoreRestartOne
    split
    · exact .none rfl rfl rfl
    · rename_i c l _
      obtain ⟨h1,h2,h3⟩ := coreRestart_logs (s := { s with haltedList := l }) c
      exact .none h1 h2 h3
  | restartAll =>
    cases hs
    exact .none rfl rfl rfl

end TinyOS.Bios
