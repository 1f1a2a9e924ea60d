import TinyOS.Bios.Contexts

/-! Cores that halt, and the interrupts that are raised for them. -/
namespace TinyOS.Bios
open Transition
variable {κ τ ρ : Type*}

/-- A halted core has no pending bit for which raise_interrupt has restarted it, and what
is kept of the calls of raise_interrupt is of the bits as they are. -/
structure Awake (s : State κ τ ρ) : Prop where
  halted : ∀ k, (s.core k).halted = true → ∀ i, (s.core k).restarted i = false
  returned : ∀ k i, (s.core k).returned i = true → (s.core k).restarted i = true
  raised : ∀ r x, s.raises r = some x → x.pc = .ret →
    (s.core x.core).cleared x.intno = x.cleared → (s.core x.core).restarted x.intno = true
  bound : ∀ r x, s.raises r = some x → x.cleared ≤ (s.core x.core).cleared x.intno

inductive CoreStep (k k' : Core) : Prop where
  | same (halted : k'.halted = k.halted) (cleared : k'.cleared = k.cleared)
      (restarted : k'.restarted = k.restarted) (returned : k'.returned = k.returned)
  | clear (i : Interrupt) (hk : k' = k.clearPending i)
  | park (free : ∀ i, k.restarted i = false) (hk : k' = { k with halted := true })
  | wake (hk : k' = { k with halted := false })

theorem CoreStep.refl (k : Core) : CoreStep k k := .same rfl rfl rfl rfl

variable {s s' : State κ τ ρ}

theorem Awake.steps (h : Awake s) (hr : s'.raises = s.raises)
    (hk : ∀ k, CoreStep (s.core k) (s'.core k)) : Awake s' := by
  have hclear : ∀ k i, (s.core k).cleared i ≤ (s'.core k).cleared i ∧
      ((s'.core k).cleared i = (s.core k).cleared i → (s.core k).restarted i = true →
        (s'.core k).restarted i = true) := by
    intro k i
    cases hk k with
    | same halted cleared restarted returned =>
      rw [cleared, restarted]
      exact ⟨Nat.le_refl _,fun _ h => h⟩
    | clear j hkj =>
      rw [hkj]
      by_cases hij : i = j
      · subst hij
        simp [Core.clearPending]
      · simp [Core.clearPending, hij]
    | park free hk =>
      rw [hk]
      exact ⟨Nat.le_refl _,fun _ h => h⟩
    | wake hk =>
      rw [hk]
      exact ⟨Nat.le_refl _,fun _ h => h⟩
  refine ⟨fun k => ?_,fun k => ?_,fun r x hx hpc hcl => ?_,fun r x hx => ?_⟩
  · cases hk k with
    | same halted cleared restarted returned =>
      rw [halted, restarted]
      exact h.halted k
    | clear j hkj =>
      rw [hkj]
      intro hh i
      by_cases hij : i = j
      · subst hij
        simp [Core.clearPending]
      · simpa [Core.clearPending, hij] using h.halted k hh i
    | park free hk =>
      rw [hk]
      exact fun _ => free
    | wake hk =>
      rw [hk]
      exact fun hh => by cases hh
  · cases hk k with
    | same halted cleared restarted returned =>
      rw [returned, restarted]
      exact h.returned k
    | clear j hkj =>
      rw [hkj]
      intro i hi
      by_cases hij : i = j
      · subst hij
        simp [Core.clearPending] at hi
      · simpa [Core.clearPending, hij] using h.returned k i
          (by simpa [Core.clearPending, hij] using hi)
    | park free hk =>
      rw [hk]
      exact h.returned k
    | wake hk =>
      rw [hk]
      exact h.returned k
  · rw [hr] at hx
    have hle := h.bound r x hx
    have hc := hclear x.core x.intno
    have heq : (s'.core x.core).cleared x.intno = (s.core x.core).cleared x.intno := by omega
    exact hc.2 heq (h.raised r x hx hpc (heq.symm.trans hcl))
  · rw [hr] at hx
    exact Nat.le_trans (h.bound r x hx) (hclear x.core x.intno).1

variable [DecidableEq κ] [DecidableEq τ] {c : κ} {rest : List (Frame κ)}

omit [DecidableEq τ] in
theorem coreStep_modCore (k : κ) (m : Core → Core) (hm : CoreStep (s.core k) (m (s.core k)))
    (k' : κ) :
    CoreStep (s.core k') ((s.modCore k m).core k') := by
  by_cases hk : k' = k
  · subst hk
    simpa [State.modCore] using hm
  · simpa [State.modCore, hk] using CoreStep.refl _

theorem runFrame_cores {f : Frame κ} (hs : runFrame s c rest f = some s')
    (hpark : ∀ k, f = .halt (.park k) → ∀ i, (s.core k).restarted i = false) :
    s'.raises = s.raises ∧ ∀ k, CoreStep (s.core k) (s'.core k) := by
  have same : s.raises = s.raises ∧ ∀ k, CoreStep (s.core k) (s.core k) := ⟨rfl,fun k => .refl _⟩
  have mod : ∀ k m l, CoreStep (s.core k) (m (s.core k)) →
      s.raises = s.raises ∧ ∀ k', CoreStep (s.core k') (((s.modCore k m).goto c l).core k') :=
    fun k m _ hm => ⟨rfl,coreStep_modCore k m hm⟩
  have unblock : ∀ l, (s.sigUnblock c l).raises = s.raises ∧
      ∀ k, CoreStep (s.core k) ((s.sigUnblock c l).core k) := by
    intro l
    unfold State.sigUnblock
    split
    · exact mod c (fun x => { x with queued := false, blocked := true }) _ (.same rfl rfl rfl rfl)
    · exact mod c (fun x => { x with blocked := false }) _ (.same rfl rfl rfl rfl)
  cases f with
  | body => cases hs
  | plain f was => cases hs
  | bracket f was pc =>
    cases pc <;> cases hs <;> exact same
  | yield was pc =>
    cases pc <;> cases hs <;> exact same
  | gain preempt pc =>
    cases hs
    cases pc with
    | preempt => cases preempt <;> exact same
    | _ => exact same
  | setPreemption pc =>
    cases hs
    cases pc with
    | exchangeOff => exact mod c _ _ (.same rfl rfl rfl rfl)
    | exchangeOn => exact mod c _ _ (.same rfl rfl rfl rfl)
    | _ => exact same
  | disable pc wrote =>
    cases hs
    cases pc with
    | load => exact same
    | test k =>
      simp only [cpuDisableInterrupts]
      split <;> exact same
    | block k => exact mod c _ _ (.same rfl rfl rfl rfl)
    | set k => exact mod k (fun x => { x with intDisabled := true }) rest (.same rfl rfl rfl rfl)
  | enable pc =>
    cases hs
    cases pc with
    | test k =>
      simp only [cpuEnableInterrupts]
      split <;> exact same
    | clear k => exact mod k _ _ (.same rfl rfl rfl rfl)
    | unblock => exact unblock _
    | _ => exact same
  | setTimer usec pc wrote =>
    cases hs
    cases pc with
    | settime k => exact mod k _ _ (.same rfl rfl rfl rfl)
    | clear k => exact mod k _ _ (.clear .ALARM rfl)
    | _ => exact same
  | dispatch k is pc =>
    cases hs
    cases is with
    | nil => exact same
    | cons i is =>
      cases pc with
      | test =>
        simp only [dispatchInterrupts]
        split <;> exact same
      | pending =>
        simp only [dispatchInterrupts]
        split <;> exact same
      | clear => exact mod k _ _ (.clear i rfl)
      | call =>
        simp only [dispatchInterrupts]
        split <;> exact same
  | sigusr1 k o pc =>
    cases hs
    cases pc with
    | enter =>
      simp only [sigusr1Handler]
      split <;> exact same
    | ret => exact mod c _ _ (.same rfl rfl rfl rfl)
  | halt pc =>
    cases pc with
    | start =>
      simp only [runFrame, cpuCoreHalt] at hs
      split at hs <;> cases hs
      exact same
    | block k =>
      cases hs
      exact mod c (fun x => { x with blocked := true }) _ (.same rfl rfl rfl rfl)
    | park k =>
      cases hs
      exact mod k (fun x => { x with halted := true }) rest (.park (hpark k rfl) rfl)
    | parked k =>
      simp only [runFrame, cpuCoreHalt] at hs
      split at hs <;> cases hs
      exact same
    | unblock k =>
      cases hs
      exact unblock _
    | dispatch k =>
      cases hs
      exact same
    | ret =>
      cases hs
      exact same

variable [DecidableEq ρ]

/-- When a core marks itself halted, no raise_interrupt has called cpu_core_restart for it
for a bit that is still pending. -/
def parksInTime (s : State κ τ ρ) : List (Frame κ) → Bool
  | .halt (.park k)::_ => Interrupt.all.all fun i => !(s.core k).restarted i
  | _ => true

def ParksInTime (s : State κ τ ρ) : Label κ τ ρ → Prop
  | .run c => parksInTime s (s.top c) = true
  | _ => True

instance (s : State κ τ ρ) (a : Label κ τ ρ) : Decidable (ParksInTime s a) :=
  match a with
  | .run c => inferInstanceAs (Decidable (parksInTime s (s.top c) = true))
  | .swap _ _ | .call _ _ | .finish _ | .deliver _ | .stay _ | .spawn _ _ | .raise _ _ _ |
      .raiseNext _
  | .restartOne | .restartAll => inferInstanceAs (Decidable True)

omit [DecidableEq κ] [DecidableEq τ] [DecidableEq ρ] in
theorem parksInTime_free {k : κ} (h : parksInTime s (.halt (.park k)::rest) = true)
    (i : Interrupt) :
    (s.core k).restarted i = false := by
  have hi : i∈Interrupt.all := by cases i <;> simp [Interrupt.all]
  simpa using List.all_eq_true.mp h i hi

omit [DecidableEq τ] [DecidableEq ρ] in
theorem coreRestart_core (k c : κ) : (coreRestart s k).core c =
    if c = k then { s.core k with halted := false } else s.core c := by
  unfold coreRestart
  split
  · by_cases hc : c = k
    · subst hc
      simp [State.modCore]
    · simp [State.modCore, hc]
  · rename_i hh
    split
    · rename_i hc
      subst hc
      have hh : (s.core c).halted = false := by simpa using hh
      rw [← hh]
    · rfl

omit [DecidableEq τ] [DecidableEq ρ] in
theorem coreRestart_raises (k : κ) : (coreRestart s k).raises = s.raises := by
  unfold coreRestart
  split <;> rfl

omit [DecidableEq τ] [DecidableEq ρ] in
theorem coreRestart_awake (h : Awake s) (k : κ) : Awake (coreRestart s k) := by
  refine h.steps (coreRestart_raises k) fun c => ?_
  rw [coreRestart_core]
  split
  · rename_i hc
    subst hc
    exact .wake rfl
  · exact .refl _

omit [DecidableEq κ] [DecidableEq τ] in
theorem Awake.raise (h : Awake s) (r : ρ) (v : Option (Raise κ))
    (hv : ∀ x, v = some x → x.cleared ≤ (s.core x.core).cleared x.intno ∧ (x.pc = .ret →
      (s.core x.core).cleared x.intno = x.cleared → (s.core x.core).restarted x.intno = true)) :
    Awake { s with raises := Function.update s.raises r v } := by
  refine ⟨h.halted,h.returned,fun r' x hx => ?_,fun r' x hx => ?_⟩
  · by_cases hr : r' = r
    · subst hr
      exact (hv x (by simpa using hx)).2
    · exact h.raised r' x (by simpa [hr] using hx)
  · by_cases hr : r' = r
    · subst hr
      exact (hv x (by simpa using hx)).1
    · exact h.bound r' x (by simpa [hr] using hx)

omit [DecidableEq τ] [DecidableEq ρ] in
theorem Awake.mark (h : Awake s) (k : κ) (m : Core → Core)
    (hcl : (m (s.core k)).cleared = (s.core k).cleared)
    (hh : (m (s.core k)).halted = false ∨
      (m (s.core k)).halted = (s.core k).halted ∧ (m (s.core k)).restarted = (s.core k).restarted)
    (hre : ∀ i, (s.core k).restarted i = true → (m (s.core k)).restarted i = true)
    (hret : ∀ i, (m (s.core k)).returned i = true → (m (s.core k)).restarted i = true) :
    Awake (s.modCore k m) := by
  have hother : ∀ k', k'≠k → (s.modCore k m).core k' = s.core k' := fun k' hk => by
    simp [State.modCore, hk]
  have hself : (s.modCore k m).core k = m (s.core k) := by simp [State.modCore]
  refine ⟨fun k' => ?_,fun k' => ?_,fun r x hx hpc => ?_,fun r x hx => ?_⟩
  · by_cases hk : k' = k
    · rw [hk, hself]
      rcases hh with hh | hh
      · rw [hh]
        exact fun hf => by cases hf
      · rw [hh.1, hh.2]
        exact h.halted k
    · rw [hother k' hk]
      exact h.halted k'
  · by_cases hk : k' = k
    · rw [hk, hself]
      exact hret
    · rw [hother k' hk]
      exact h.returned k'
  · by_cases hk : x.core = k
    · rw [hk, hself, hcl]
      exact fun hc => hre _ (hk ▸ h.raised r x hx hpc (by rw [hk]; exact hc))
    · rw [hother _ hk]
      exact h.raised r x hx hpc
  · by_cases hk : x.core = k
    · rw [hk, hself, hcl, ← hk]
      exact h.bound r x hx
    · rw [hother _ hk]
      exact h.bound r x hx

omit [DecidableEq τ] in
theorem raiseInterrupt_awake {r : ρ} {x : Raise κ} (h : Awake s) (hx : s.raises r = some x) :
    Awake (raiseInterrupt s r x) := by
  unfold raiseInterrupt
  split
  · have hq : Awake (s.modCore x.core fun k => { k with queued := true }) :=
      h.steps rfl (coreStep_modCore _ _ (.same rfl rfl rfl rfl))
    refine hq.raise r _ fun x' hx' => ?_
    cases hx'
    exact ⟨hq.bound r x hx,fun hpc => by cases hpc⟩
  · -- the core is not halted when the restart is noted
    have h1 := coreRestart_awake h x.core
    have hcore : (coreRestart s x.core).core x.core = { s.core x.core with halted := false } := by
      simp [coreRestart_core]
    have hre : ∀ k : Core, ∀ i, k.restarted i = true → (k.markRestarted x).restarted i = true := by
      intro k i hi
      by_cases hix : i = x.intno
      · subst hix
        simp [Core.markRestarted, hi]
      · simpa [Core.markRestarted, hix] using hi
    have h2 := h1.mark x.core (fun k => k.markRestarted x) rfl (Or.inl (by rw [hcore]; rfl)) (hre _)
      fun i hi => hre _ i (h1.returned x.core i hi)
    have hraises : ((coreRestart s x.core).modCore x.core fun k => k.markRestarted x).raises =
      s.raises :=
      coreRestart_raises x.core
    have h3 := h2.raise r (some { x with pc := .ret }) fun x' hx' => by
      cases hx'
      refine ⟨h2.bound r x (by rw [hraises]; exact hx),fun _ hc => ?_⟩
      have hc : (s.core x.core).cleared x.intno = x.cleared := by
        simpa [State.modCore, hcore, Core.markRestarted] using hc
      simp [State.modCore, hcore, Core.markRestarted, hc]
    rw [hraises] at h3
    exact h3
  · have hret : ∀ i, ((s.core x.core).markReturned x).returned i = true →
        ((s.core x.core).markReturned x).restarted i = true := by
      intro i hi
      by_cases hix : i = x.intno
      · subst hix
        simp only [Core.markReturned, Function.update_self, Bool.or_eq_true,
          decide_eq_true_eq] at hi
        rcases hi with hi | hi
        · exact h.raised r x hx ‹_› hi
        · exact h.returned x.core _ hi
      · exact h.returned x.core i (by simpa [Core.markReturned, hix] using hi)
    have h1 := h.mark x.core (fun k => k.markReturned x) rfl (Or.inr ⟨rfl,rfl⟩) (fun _ hi => hi)
      hret
    exact h1.raise r none fun x' hx' => by cases hx'

theorem next_awake {a : Label κ τ ρ} (h : Awake s) (ha : ParksInTime s a)
    (hs : next s a = some s') :
    Awake s' := by
  cases a with
  | run c =>
    simp only [next] at hs
    split at hs
    · cases hs
    · rename_i f rest htop
      have hpark : ∀ k, f = .halt (.park k) → ∀ i, (s.core k).restarted i = false := by
        intro k hf
        have ha : parksInTime s (s.top c) = true := ha
        rw [htop, hf] at ha
        exact parksInTime_free ha
      obtain ⟨hr,hk⟩ := runFrame_cores hs hpark
      exact h.steps hr hk
  | call c f =>
    simp only [next] at hs
    split at hs
    · cases hs
    · split at hs <;> cases hs
      exact h.steps rfl fun k => .refl _
  | finish c =>
    have hs : finish s c (s.top c) = some s' := hs
    unfold finish at hs
    split at hs
    · cases hs
      exact h.steps rfl fun k => .refl _
    · split at hs <;> cases hs <;> exact h.steps rfl fun k => .refl _
    · cases hs
  | swap c x =>
    have hs : cpuSwapContext s c x (s.top c) = some s' := hs
    unfold cpuSwapContext at hs
    split at hs
    · obtain ⟨mask,-,hs⟩ := Option.bind_eq_some_iff.mp hs
      split at hs <;> cases hs
      exact h.steps rfl (coreStep_modCore c (fun k => { k with blocked := mask })
        (.same rfl rfl rfl rfl))
    · cases hs
  | stay c =>
    have hs : stay s c (s.top c) = some s' := hs
    unfold stay at hs
    split at hs <;> cases hs
    exact h.steps rfl fun k => .refl _
  | spawn c t =>
    simp only [next] at hs
    split at hs <;> cases hs
    exact h.steps rfl fun k => .refl _
  | deliver c =>
    simp only [next] at hs
    split at hs <;> cases hs
    exact h.steps rfl
      (coreStep_modCore c (fun k => { k with queued := false, blocked := true })
        (.same rfl rfl rfl rfl))
  | raise r c i =>
    simp only [next] at hs
    split at hs <;> cases hs
    have h1 : Awake (s.modCore c fun k => { k with intpending := Function.update k.intpending i true
      }) :=
      h.steps rfl (coreStep_modCore _ _ (.same rfl rfl rfl rfl))
    refine h1.raise r _ fun x hx => ?_
    cases hx
    refine ⟨?_,fun hpc => by cases hpc⟩
    simp [State.modCore]
  | raiseNext r =>
    obtain ⟨x,hx,rfl⟩ := Option.map_eq_some_iff.mp hs
    exact raiseInterrupt_awake h hx
  | restartOne =>
    cases hs
    unfold cpuCoreRestartOne
    split
    · exact h
    · rename_i l _
      have hl : Awake { s with haltedList := l } := h.steps rfl fun k => .refl _
      exact coreRestart_awake hl _
  | restartAll =>
    cases hs
    exact h.steps rfl fun k => .wake rfl

/-- If cores halt in time, no core is halted with an interrupt pending for which
raise_interrupt has returned. -/
theorem not_parked (hr : ((system κ τ ρ).restrict ParksInTime).Reachable s) : ∀ k i,
    (s.core k).returned i = true → (s.core k).intpending i = true → (s.core k).halted = false := by
  intro k i hi _
  have h : Awake s := by
    refine System.invariant _ Awake ?_ ?_ hr
    · rintro s ⟨serial,rfl⟩
      constructor <;> simp [boot]
    · intro s a s' h hs
      obtain ⟨ha,hs⟩ := System.restrict_next hs
      exact next_awake h ha hs
  cases hh : (s.core k).halted with
  | false => rfl
  | true =>
    have := h.returned k i hi
    rw [h.halted k hh i] at this
    cases this

theorem not_parked_restarted : ∃ s : State (Fin 2) (Fin 2) Unit,
    ((s.core 0).returned .ALARM = true ∧ (s.core 0).intpending .ALARM = true) ∧ (s.core 0).halted = false := by
  obtain ⟨s,hr,hs⟩ := System.reaches ((system (Fin 2) (Fin 2) Unit).restrict ParksInTime)
    ⟨fun c => decide (c = 0),rfl⟩ (.call 0 .halt::List.replicate 3 (.run 0)++raiseRun 0 .ALARM)
    (fun s => (s.core 0).returned .ALARM = true ∧ (s.core 0).intpending .ALARM = true)
      (by decide +kernel)
  exact ⟨s,hs,not_parked hr 0 .ALARM hs.1 hs.2⟩

/-- The core has blocked SIGUSR1 in cpu_core_halt when the ALARM is raised: it is queued,
the restart finds the core not halted, and then the core halts. -/
theorem parked_pending : ¬∀ s : State (Fin 2) (Fin 2) Unit, (system (Fin 2) (Fin 2) Unit).Reachable s →
    ∀ k i, (s.core k).returned i = true → (s.core k).intpending i = true → (s.core k).halted = false := by
  intro h
  obtain ⟨s,hr,hs⟩ := (system (Fin 2) (Fin 2) Unit).reaches ⟨fun c => decide (c = 0),rfl⟩
    (.call 0 .halt::List.replicate 2 (.run 0)++raiseRun 0 .ALARM++[.run 0])
    (fun s => (s.core 0).returned .ALARM = true ∧ (s.core 0).intpending .ALARM = true ∧
      (s.core 0).halted = true) (by decide +kernel)
  have := h s hr 0 .ALARM hs.1 hs.2.1
  rw [hs.2.2] at this
  cases this

end TinyOS.Bios
