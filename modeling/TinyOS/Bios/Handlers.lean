import TinyOS.Bios.Contexts

/-! Where the handlers of interrupts run, and with which interrupts off. -/
namespace TinyOS.Bios
open Transition
variable {κ τ ρ : Type*}

def marks (l : List (Frame κ)) : List Bool := l.filterMap Frame.signal

/-- Only the last signal handler of a stack has not had SIGUSR1 unblocked since its start,
and if so SIGUSR1 is blocked. -/
structure Sealed (l : List (Frame κ)) (blocked : Bool) : Prop where
  below : ∀ o∈(marks l).tail, o = true
  mask : false∈marks l → blocked = true

theorem Sealed.sublist {l l' : List (Frame κ)} {b b' : Bool} (h : Sealed l b)
    (hl : (marks l').Sublist (marks l)) (hb : b' = true ∨ b' = b) : Sealed l' b' := by
  refine ⟨fun o ho => h.below o (hl.tail.subset ho),fun hf => ?_⟩
  rcases hb with hb | hb
  · exact hb
  · rw [hb]
    exact h.mask (hl.subset hf)

theorem marks_saveResult (old : Bool) (l : List (Frame κ)) :
    marks (saveResult old l) = marks l := by
  unfold saveResult
  split <;> simp [marks, List.filterMap_cons, Frame.signal]

theorem Sealed.of_true {l : List (Frame κ)} (h : ∀ o∈marks l, o = true) (b : Bool) : Sealed l b :=
  ⟨fun o ho => h o (List.mem_of_mem_tail ho),fun hf => by cases h _ hf⟩

theorem marks_unblocked (l : List (Frame κ)) : ∀ o∈marks (unblocked l), o = true := by
  intro o ho
  obtain ⟨g,hg,ho⟩ := List.mem_filterMap.mp ho
  obtain ⟨f,-,rfl⟩ := List.mem_map.mp hg
  cases f <;> simp_all [Frame.signal]

variable {s s' : State κ τ ρ} {c : κ} {l rest : List (Frame κ)}

theorem Sealed.goes {f : Frame κ} (hg : Goes s s' c f rest)
    (h : Sealed (f::rest) (s.core c).blocked) :
    Sealed (s'.stack (s.cur c)) (s'.core c).blocked := by
  have hrest : (marks rest).Sublist (marks (f::rest)) := (List.sublist_cons_self f rest).filterMap _
  cases hg with
  | goto gs hd top mask =>
    rw [top]
    refine h.sublist ?_ mask
    have := hd.signals.append_right (marks rest)
    simpa [marks, ← List.filterMap_append] using this
  | save old top mask =>
    rw [top]
    refine h.sublist ?_ (Or.inr mask)
    rw [marks_saveResult]
    exact hrest
  | unblock gs hd top =>
    rw [top]
    exact .of_true (marks_unblocked _) _
  | deliver gs hd hgs top mask =>
    rw [top]
    exact ⟨marks_unblocked _,fun _ => mask⟩
  | sigreturn k o hf top =>
    rw [top]
    exact .of_true (fun x hx => h.below x (by rw [hf]; exact hx)) _

structure Masked (s : State κ τ ρ) : Prop where
  top : ∀ c, Sealed (s.top c) (s.core c).blocked
  out : ∀ x b, s.saved x = some b → Sealed (s.stack x) b

variable [DecidableEq κ] [DecidableEq τ] [DecidableEq ρ]

theorem next_masked {a : Label κ τ ρ} (h : Masked s) (hc : Contexts s) (hs : next s a = some s') :
    Masked s' := by
  have step : ∀ c, Elsewhere s s' c → Sealed (s'.stack (s.cur c)) (s'.core c).blocked →
    Masked s' := by
    intro c he hl
    refine ⟨fun c' => ?_,fun x b hx => ?_⟩
    · rw [State.top, he.cur]
      by_cases hcc : c' = c
      · subst hcc
        exact hl
      · rw [he.stack _ fun hcur => hcc (hc.inj _ _ hcur), he.mask c' hcc]
        exact h.top c'
    · rw [he.saved] at hx
      rw [he.stack x (hc.ne_cur hx c)]
      exact h.out x b hx
  cases next_change hs with
  | goes c f rest top hg he ground => exact step c he (.goes hg (top ▸ h.top c))
  | deliver c free mask top he =>
    refine step c he ?_
    rw [top, mask]
    refine ⟨fun o ho => ?_,fun _ => rfl⟩
    cases o with
    | true => rfl
    | false =>
      have := (h.top c).mask ho
      rw [free] at this
      cases this
  | swap c x was preempt mask rest top saved on cur stack saved' mask' =>
    have hx := hc.ne_cur saved
    refine ⟨fun c' => ?_,fun y b hy => ?_⟩
    · rw [State.top, cur, stack, mask']
      by_cases hcc : c' = c
      · subst hcc
        simpa [hx c'] using h.out x mask saved
      · have hne : s.cur c'≠s.cur c := fun he => hcc (hc.inj _ _ he)
        simpa [hcc, hne, State.top] using h.top c'
    · rw [saved'] at hy
      rw [stack]
      by_cases hyx : y = x
      · subst hyx
        simp at hy
      · by_cases hyc : y = s.cur c
        · subst hyc
          obtain rfl : (s.core c).blocked = b := by simpa [hyx] using hy
          have := h.top c
          rw [top] at this
          rw [Function.update_self]
          exact this.sublist (List.Sublist.refl (marks rest)) (Or.inr rfl)
        · have hy' : s.saved y = some b := by simpa [hyx, hyc] using hy
          simpa [hyc] using h.out y b hy'
  | spawn c t new hnew =>
    subst hnew
    refine ⟨fun c' => ?_,fun y b hy => ?_⟩
    · simpa [State.top, cpuInitializeContext, hc.ne_new new c'] using h.top c'
    · by_cases hyt : y = .normal t
      · subst hyt
        simpa [cpuInitializeContext] using Sealed.of_true
          (by simp [marks, List.filterMap_cons, Frame.signal]) b
      · have hy' : s.saved y = some b := by simpa [cpuInitializeContext, hyt] using hy
        simpa [cpuInitializeContext, hyt] using h.out y b hy'
  | same cur stack saved mask =>
    refine ⟨fun c' => ?_,fun y b hy => ?_⟩
    · rw [State.top, cur, stack, mask]
      exact h.top c'
    · rw [saved] at hy
      rw [stack]
      exact h.out y b hy

theorem reachable_masked (hr : (system κ τ ρ).Reachable s) : Masked s := by
  induction hr with
  | init h =>
    obtain ⟨serial,rfl⟩ := h
    exact ⟨fun c => .of_true (by simp [marks, State.top, boot, Frame.signal]) _,
      fun x b hx => by cases hx⟩
  | step hr hs ih => exact next_masked ih (reachable_contexts hr) hs

/-- A handler is called by sigusr1_handler, and SIGUSR1 has not been unblocked since the
signal: not by cpu_enable_interrupts or cpu_core_halt, nor after a handler that has enabled
interrupts. -/
def signalled (s : State κ τ ρ) : List (Frame κ) → Bool
  | .dispatch k (i::_) .call::rest =>
    ((s.core k).intvec i).isNone || decide (rest.head?.bind Frame.signal = some false)
  | _ => true

def FromSignal (s : State κ τ ρ) : Label κ τ ρ → Prop
  | .run c => signalled s (s.top c) = true
  | _ => True

instance (s : State κ τ ρ) (a : Label κ τ ρ) : Decidable (FromSignal s a) :=
  match a with
  | .run c => inferInstanceAs (Decidable (signalled s (s.top c) = true))
  | .swap _ _ | .call _ _ | .finish _ | .deliver _ | .stay _ | .spawn _ _ | .raise _ _ _ |
      .raiseNext _
  | .restartOne | .restartAll => inferInstanceAs (Decidable True)

omit [DecidableEq κ] [DecidableEq τ] [DecidableEq ρ] in
theorem Masked.enters {k : κ} {i : Interrupt} {is : List Interrupt} (h : Masked s)
    (htop : s.top c = .dispatch k (i::is) .call::rest) (hi : ((s.core k).intvec i).isSome = true)
    (hc : signalled s (s.top c) = true) : (s.core c).blocked = true := by
  apply (h.top c).mask
  rw [htop] at hc ⊢
  simp only [signalled, Option.isNone_eq_false_iff.mpr hi, Bool.false_or, decide_eq_true_eq] at hc
  cases rest with
  | nil => cases hc
  | cons f rest =>
    refine List.mem_filterMap.mpr ⟨f,by simp,?_⟩
    simpa using hc

theorem Masked.not_deliver (h : Masked s) (hc : false∈marks (s.top c)) :
    next s (.deliver c) = none := by
  have := (h.top c).mask hc
  simp [next, this]

/-- Handlers that sigusr1_handler calls before SIGUSR1 is unblocked are entered with
interrupts off, and until then no second signal is delivered. -/
theorem handlers_masked (hr : ((system κ τ ρ).restrict FromSignal).Reachable s) :
    (∀ e∈s.entries, e.blocked = true ∨ e.intDisabled = true) ∧
      ∀ c, false∈marks (s.top c) → next s (.deliver c) = none := by
  refine ⟨?_,fun c => (reachable_masked hr.of_restrict).not_deliver⟩
  induction hr with
  | init h =>
    obtain ⟨serial,rfl⟩ := h
    simp [boot]
  | step hr hs ih =>
    have hm := reachable_masked hr.of_restrict
    obtain ⟨ha,hs⟩ := System.restrict_next hs
    cases next_logs hs with
    | none hdone hentries hreturns => rwa [hentries]
    | returns c f rest was htop hf hdone hentries hreturns => rwa [hentries]
    | enters c k i is rest htop hh hdone hentries hreturns =>
      rw [hentries, List.forall_mem_append]
      exact ⟨ih,List.forall_mem_singleton.mpr (Or.inl (hm.enters htop hh ha))⟩
    | leaf c f rest d htop htop' hcore hwrote hcall hflags hdone hentries hreturns => rwa [hentries]

theorem handlers_masked_alarm : ∃ s : State (Fin 2) (Fin 2) Unit,
    (s.entries.length = 1 ∧ false∈marks (s.top 0)) ∧
      (∀ e∈s.entries, e.blocked = true ∨ e.intDisabled = true) ∧
      ∀ c, false∈marks (s.top c) → next s (.deliver c) = none := by
  obtain ⟨s,hr,hs⟩ := System.reaches ((system (Fin 2) (Fin 2) Unit).restrict FromSignal)
    ⟨fun c => decide (c = 0),rfl⟩ (startRun++alarmRun)
    (fun s => s.entries.length = 1 ∧ false∈marks (s.top 0)) (by decide +kernel)
  exact ⟨s,hs,handlers_masked hr⟩

/-- Inside of wakeup raise_interrupt has set the bit of the ALARM, but not queued SIGUSR1:
the preempt_on at the end calls the handler after it has enabled interrupts. -/
theorem handler_unmasked : ¬∀ s : State (Fin 2) (Fin 2) Unit, (system (Fin 2) (Fin 2) Unit).Reachable s →
    (∀ e∈s.entries, e.blocked = true ∨ e.intDisabled = true) ∧
      ∀ c, false∈marks (s.top c) → next s (.deliver c) = none := by
  intro h
  obtain ⟨s,hr,hs⟩ := (system (Fin 2) (Fin 2) Unit).reaches ⟨fun c => decide (c = 0),rfl⟩
    (startRun++.call 0 (.bracket .wakeup)::List.replicate 7 (.run 0)++
      [.raise () 0 .ALARM, .finish 0]++List.replicate 13 (.run 0))
    (fun s => ⟨0,0,.ALARM,false,false⟩∈s.entries) (by decide +kernel)
  have := (h s hr).1 _ hs
  simp at this

/-- No thread goes on on another core inside of a loop of dispatch_interrupts, of
sigusr1_handler or of cpu_core_halt. -/
def LoopStays (s : State κ τ ρ) : Label κ τ ρ → Prop
  | .swap c x => ∀ f∈s.stack x, ∀ k∈f.loopCore, k = c
  | _ => True

instance (s : State κ τ ρ) (a : Label κ τ ρ) : Decidable (LoopStays s a) :=
  match a with
  | .swap c x => inferInstanceAs (Decidable (∀ f∈s.stack x, ∀ k∈f.loopCore, k = c))
  | .run _ | .call _ _ | .finish _ | .deliver _ | .stay _ | .spawn _ _ | .raise _ _ _ | .raiseNext _
  | .restartOne | .restartAll => inferInstanceAs (Decidable True)

omit [DecidableEq κ] in
theorem loopCore_held : Held (κ := κ) fun c f => ∀ k∈f.loopCore, k = c := by
  constructor
  · intro c f gs hd hf g hg k hk
    exact (hd.loop g hg k hk).elim (hf k) id
  · intro c f hf
    rw [(Frame.of_neutral hf).2.2.1]
    simp
  · simp [Frame.loopCore]
  · simp [Frame.loopCore]

theorem reachable_loop (hr : ((system κ τ ρ).restrict LoopStays).Reachable s) :
    ∀ c, ∀ f∈s.top c, ∀ k∈f.loopCore, k = c := by
  induction hr with
  | init h =>
    obtain ⟨serial,rfl⟩ := h
    simp [State.top, boot, Frame.loopCore]
  | step hr hs ih =>
    obtain ⟨ha,hs⟩ := System.restrict_next hs
    refine next_held loopCore_held (reachable_contexts hr.of_restrict) ih (fun c x hax => ?_) hs
    subst hax
    exact ha

/-- If no thread is moved inside of a dispatch loop, the interrupts of a core are handled
on it. -/
theorem handled_here (hr : ((system κ τ ρ).restrict LoopStays).Reachable s) :
    ∀ e∈s.entries, e.owner = e.core := by
  induction hr with
  | init h =>
    obtain ⟨serial,rfl⟩ := h
    simp [boot]
  | step hr hs ih =>
    have hl := reachable_loop hr
    obtain ⟨ha,hs⟩ := System.restrict_next hs
    cases next_logs hs with
    | none hdone hentries hreturns => rwa [hentries]
    | returns c f rest was htop hf hdone hentries hreturns => rwa [hentries]
    | enters c k i is rest htop hh hdone hentries hreturns =>
      rw [hentries, List.forall_mem_append]
      have hk := hl c (.dispatch k (i::is) .call) (by simp [htop]) k rfl
      exact ⟨ih,List.forall_mem_singleton.mpr hk⟩
    | leaf c f rest d htop htop' hcore hwrote hcall hflags hdone hentries hreturns => rwa [hentries]

theorem handled_here_alarm : ∃ s : State (Fin 2) (Fin 2) Unit,
    (s.entries.length = 2 ∧ s.top 0 = [.body]) ∧ ∀ e∈s.entries, e.owner = e.core := by
  obtain ⟨s,hr,hs⟩ := System.reaches ((system (Fin 2) (Fin 2) Unit).restrict LoopStays)
    ⟨fun c => decide (c = 0),rfl⟩ (startRun++alarmRun++.swap 0 (.normal 1)::List.replicate 26 (.run 0)++
      alarmRun++.swap 0 (.normal 0)::List.replicate 33 (.run 0))
    (fun s => s.entries.length = 2 ∧ s.top 0 = [.body]) (by decide +kernel)
  exact ⟨s,hs,handled_here hr⟩

/-- The first thread goes on on core 1 after the yield of the ALARM, in a loop over the
interrupts of core 0, on which the second one runs when the serial port is ready. -/
theorem handled_elsewhere : ¬∀ s : State (Fin 2) (Fin 2) Unit, (system (Fin 2) (Fin 2) Unit).Reachable s →
    ∀ e∈s.entries, e.owner = e.core := by
  intro h
  obtain ⟨s,hr,hs⟩ := (system (Fin 2) (Fin 2) Unit).reaches ⟨fun c => decide (c = 0),rfl⟩
    (startRun++migrateRun++List.replicate 27 (.run 1)++.raise () 0 .SERIAL_RX_READY::
      List.replicate 4 (.run 1))
    (fun s => ⟨0,1,.SERIAL_RX_READY,false,false⟩∈s.entries) (by decide +kernel)
  have := h s hr _ hs
  simp at this

end TinyOS.Bios
