import TinyOS.Bios.Contexts

/-! What holds of preemption and of the core-local operations in every run. -/
namespace TinyOS.Bios
open Transition
variable {κ τ ρ : Type*}

def Frame.inPreemption : Frame κ → Bool
  | .setPreemption .done | .enable .dispatch | .enable .ret => false
  | .setPreemption _ | .disable _ _ | .enable _ => true
  | _ => false

/-- set_core_preemption is atomic: no signal is delivered inside of it. -/
def Atomic (s : State κ τ ρ) : Label κ τ ρ → Prop
  | .deliver c => ∀ f∈(s.top c).head?, f.inPreemption = false
  | _ => True

instance (s : State κ τ ρ) (a : Label κ τ ρ) : Decidable (Atomic s a) :=
  match a with
  | .deliver c => inferInstanceAs (Decidable (∀ f∈(s.top c).head?, f.inPreemption = false))
  | .run _ | .call _ _ | .finish _ | .swap _ _ | .stay _ | .spawn _ _ | .raise _ _ _ | .raiseNext _
  | .restartOne | .restartAll => inferInstanceAs (Decidable True)

def Quiet (l : List (Frame κ)) : Prop := ∀ f∈l.tail, f.disables = none

theorem quiet_saveResult (old : Bool) {l : List (Frame κ)} (h : Quiet l) :
    Quiet (saveResult old l) := by
  unfold saveResult
  split <;> exact h

theorem unblocked_disables {l : List (Frame κ)} (h : ∀ f∈l, f.disables = none) :
    ∀ f∈unblocked l, f.disables = none := by
  intro g hg
  obtain ⟨f,hf,rfl⟩ := List.mem_map.mp hg
  cases f with
  | sigusr1 k o pc => rfl
  | _ => exact h _ hf

theorem quiet_append {gs rest : List (Frame κ)} (hgs : ∀ g∈gs.tail, g.disables = none)
    (hrest : ∀ f∈rest, f.disables = none) : Quiet (gs++rest) := by
  intro f hf
  cases gs with
  | nil => exact hrest f (List.mem_of_mem_tail hf)
  | cons g gs =>
    rcases List.mem_append.mp hf with hf | hf
    · exact hgs f hf
    · exact hrest f hf

variable [DecidableEq κ] [DecidableEq τ] [DecidableEq ρ]
variable {s s' : State κ τ ρ} {c : κ} {l rest : List (Frame κ)}

omit [DecidableEq κ] [DecidableEq τ] [DecidableEq ρ] in
theorem quiet_goes {f : Frame κ} (h : Quiet (f::rest)) (hg : Goes s s' c f rest) :
    Quiet (s'.stack (s.cur c)) := by
  cases hg with
  | goto gs hd top mask =>
    rw [top]
    exact quiet_append hd.disables h
  | save old top mask =>
    rw [top]
    exact quiet_saveResult old fun g hg => h g (List.mem_of_mem_tail hg)
  | unblock gs hd top =>
    rw [top]
    have := quiet_append hd.disables h
    unfold Quiet unblocked at *
    rw [← List.map_tail]
    exact unblocked_disables this
  | deliver gs hd hgs top mask =>
    rw [top]
    exact unblocked_disables (List.forall_mem_append.mpr ⟨hgs,h⟩)
  | sigreturn k o hf top =>
    rw [top]
    exact fun g hg => h g (List.mem_of_mem_tail hg)

theorem next_quiet {a : Label κ τ ρ} (h : ∀ x, Quiet (s.stack x)) (ha : Atomic s a)
    (hs : next s a = some s') (x : Ctx κ τ) : Quiet (s'.stack x) := by
  cases next_change hs with
  | goes c f rest top hg he ground =>
    by_cases hx : x = s.cur c
    · subst hx
      exact quiet_goes (top ▸ h _) hg
    · rw [he.stack x hx]
      exact h x
  | deliver c free mask top he =>
    by_cases hx : x = s.cur c
    · subst hx
      rw [top]
      intro f hf
      cases htop : s.top c with
      | nil => simp [htop] at hf
      | cons g l =>
        rw [htop] at hf
        rcases List.mem_cons.mp hf with rfl | hf
        · have hin := ha f (by simp [htop])
          cases f <;> first | rfl | cases hin
        · have := h (s.cur c)
          rw [State.top] at htop
          rw [htop] at this
          exact this f hf
    · rw [he.stack x hx]
      exact h x
  | swap c y was preempt mask rest top saved on cur stack saved' mask' =>
    rw [stack]
    by_cases hx : x = s.cur c
    · subst hx
      have hq := h (s.cur c)
      rw [State.top] at top
      rw [top] at hq
      simp only [Function.update_self]
      exact List.forall_mem_cons.mpr ⟨rfl,hq⟩
    · rw [Function.update_of_ne hx]
      exact h x
  | spawn c t new hnew =>
    subst hnew
    by_cases hx : x = .normal t
    · subst hx
      simp [cpuInitializeContext, Quiet, Frame.disables]
    · simpa [cpuInitializeContext, hx] using h x
  | same cur stack saved mask =>
    rw [stack]
    exact h x

omit [DecidableEq ρ] in
theorem next_swap {x : Ctx κ τ} (hs : cpuSwapContext s c x l = some s') :
    ∃ mask, s.saved x = some mask := by
  unfold cpuSwapContext at hs
  split at hs
  · obtain ⟨mask,hmask,-⟩ := Option.bind_eq_some_iff.mp hs
    exact ⟨mask,hmask⟩
  · cases hs

omit [DecidableEq κ] [DecidableEq τ] [DecidableEq ρ] in
theorem Good.out_disables {x : Ctx κ τ} {mask : Bool} (h : Good s) (hq : Quiet (s.stack x))
    (hx : s.saved x = some mask) : ∀ f∈s.stack x, f.disables = none := by
  have hout := h.out x mask hx
  generalize s.stack x = l at hq hout
  cases hout with
  | yield hb => exact List.forall_mem_cons.mpr ⟨rfl,hq⟩
  | new => exact List.forall_mem_cons.mpr ⟨rfl,hq⟩

theorem reachable_good (hr : ((system κ τ ρ).restrict Atomic).Reachable s) :
    Good s ∧ ∀ x, Quiet (s.stack x) := by
  refine System.invariant _ (fun s => Good s ∧ ∀ x, Quiet (s.stack x)) ?_ ?_ hr
  · rintro s ⟨serial,rfl⟩
    refine ⟨boot_good serial,fun x => ?_⟩
    cases x <;> simp [boot, Quiet]
  · intro s a s' h hs
    obtain ⟨ha,hs⟩ := System.restrict_next hs
    refine ⟨next_good h.1 ?_ hs,next_quiet h.2 ha hs⟩
    intro c x hax f hf k hk
    subst hax
    obtain ⟨mask,hmask⟩ := next_swap hs
    rw [h.1.out_disables (h.2 x) hmask f hf] at hk
    cases hk

omit [DecidableEq κ] [DecidableEq τ] [DecidableEq ρ] in
theorem Good.returns {f : Frame κ} {was : Bool} (h : Good s) (htop : s.top c = f::rest)
    (hf : f = .yield was .ret ∨ (∃ g, f = .bracket g was .ret) ∨ ∃ g, f = .plain g was) :
    (s.core c).preemption = was := by
  have hfit := h.fits c
  rw [htop] at hfit
  suffices (s.flags c).preemption = was from this
  generalize s.flags c = F at hfit
  rcases hf with rfl | ⟨g,rfl⟩ | ⟨g,rfl⟩
  · cases hfit with
    | base hb => cases hb
    | yieldRet hb => simp
  · cases hfit with
    | base hb => cases hb
    | bracketRet hb => simp
  · cases hfit with
    | base hb =>
      cases hb with
      | plain hb hL => simp

omit [DecidableEq κ] [DecidableEq τ] [DecidableEq ρ] in
theorem Good.body (h : Good s) (htop : s.top c = [.body]) : (s.core c).preemption = true := by
  have hfit := h.fits c
  rw [htop] at hfit
  suffices (s.flags c).preemption = true from this
  generalize s.flags c = F at hfit
  cases hfit with
  | base hb =>
    cases hb with
    | body => rfl

/-- With set_core_preemption atomic, the functions of the kernel return with the
preemption of their call, on whichever core they return, and the code of a thread runs
with preemption on. -/
theorem preemption_kept (hr : ((system κ τ ρ).restrict Atomic).Reachable s) :
    (∀ r∈s.returns, r.now = r.was) ∧ ∀ c, s.top c = [.body] → (s.core c).preemption = true := by
  refine ⟨?_,fun c hc => (reachable_good hr).1.body hc⟩
  induction hr with
  | init h =>
    obtain ⟨serial,rfl⟩ := h
    simp [boot]
  | step hr hs ih =>
    have hg := (reachable_good hr).1
    obtain ⟨-,hs⟩ := System.restrict_next hs
    cases next_logs hs with
    | none hdone hentries hreturns => rwa [hreturns]
    | returns c f rest was htop hf hdone hentries hreturns =>
      rw [hreturns]
      rw [List.forall_mem_append, hg.returns htop hf]
      exact ⟨ih,by simp⟩
    | enters c k i is rest htop hh hdone hentries hreturns => rwa [hreturns]
    | leaf c f rest d htop htop' hcore hwrote hcall hflags hdone hentries hreturns => rwa [hreturns]

theorem preemption_kept_migrated : ∃ s : State (Fin 2) (Fin 2) Unit,
    (s.cur 1 = .normal 0 ∧ s.top 1 = [.body] ∧ s.returns.length = 2) ∧
      (∀ r∈s.returns, r.now = r.was) ∧ ∀ c, s.top c = [.body] → (s.core c).preemption = true := by
  obtain ⟨s,hr,hs⟩ := System.reaches ((system (Fin 2) (Fin 2) Unit).restrict Atomic)
    ⟨fun c => decide (c = 0),rfl⟩ (startRun++migrateRun++List.replicate 33 (.run 1))
    (fun s => s.cur 1 = .normal 0 ∧ s.top 1 = [.body] ∧ s.returns.length = 2) (by decide +kernel)
  exact ⟨s,hs,preemption_kept hr⟩

/-- No thread goes on on another core inside of cpu_disable_interrupts or bios_set_timer,
after their first call of curr_core. -/
def LeafStays (s : State κ τ ρ) : Label κ τ ρ → Prop
  | .swap c x => ∀ f∈s.stack x, ∀ k∈f.leafCores, k = c
  | _ => True

instance (s : State κ τ ρ) (a : Label κ τ ρ) : Decidable (LeafStays s a) :=
  match a with
  | .swap c x => inferInstanceAs (Decidable (∀ f∈s.stack x, ∀ k∈f.leafCores, k = c))
  | .run _ | .call _ _ | .finish _ | .deliver _ | .stay _ | .spawn _ _ | .raise _ _ _ | .raiseNext _
  | .restartOne | .restartAll => inferInstanceAs (Decidable True)

omit [DecidableEq κ] in
theorem leafCores_held : Held (κ := κ) fun c f => ∀ k∈f.leafCores, k = c := by
  constructor
  · intro c f gs hd hf g hg k hk
    exact (hd.leaf g hg k hk).elim (hf k) id
  · intro c f hf
    rw [(Frame.of_neutral hf).2.1]
    simp
  · simp [Frame.leafCores]
  · simp [Frame.leafCores]

omit [DecidableEq κ] in
theorem Frame.mem_leafCores {f : Frame κ} {k : κ} (h : f.disables = some k) : k∈f.leafCores := by
  cases f with
  | disable pc wrote =>
    cases pc with
    | load => cases h
    | _ => simp_all [Frame.disables, Frame.leafCores]
  | _ => cases h

theorem reachable_leaf (hr : ((system κ τ ρ).restrict LeafStays).Reachable s) :
    Good s ∧ Contexts s ∧ ∀ c, ∀ f∈s.top c, ∀ k∈f.leafCores, k = c := by
  refine System.invariant _
    (fun s => Good s ∧ Contexts s ∧ ∀ c, ∀ f∈s.top c, ∀ k∈f.leafCores, k = c) ?_ ?_ hr
  · rintro s ⟨serial,rfl⟩
    refine ⟨boot_good serial,boot_contexts serial,fun c => ?_⟩
    simp [State.top, boot, Frame.leafCores]
  · intro s a s' h hs
    obtain ⟨ha,hs⟩ := System.restrict_next hs
    have hswap : ∀ c x, a = .swap c x → ∀ f∈s.stack x, ∀ k∈f.leafCores, k = c := by
      intro c x hax
      subst hax
      exact ha
    refine ⟨next_good h.1 ?_ hs,next_contexts h.2.1 hs,next_held leafCores_held h.2.1 h.2.2
      hswap hs⟩
    exact fun c x hax f hf k hk => hswap c x hax f hf k (Frame.mem_leafCores hk)

omit [DecidableEq κ] in
theorem Fits.of_disable {pc : DisablePc κ} {wrote : List κ} {F : Flags}
    (h : Fits (.disable pc wrote::l) F) :
    ∃ l', l = .setPreemption .exchangeOff::l' := by
  cases h with
  | base hb => cases hb
  | disableLoad h => exact ⟨_,rfl⟩
  | disableTest h => exact ⟨_,rfl⟩
  | disableBlock h hL => exact ⟨_,rfl⟩
  | disableSet h => exact ⟨_,rfl⟩

omit [DecidableEq κ] in
theorem Fits.of_exchangeOff {F : Flags} (h : Fits (.setPreemption .exchangeOff::l) F) :
    F.intDisabled = true ∧ F.blocked = true := by
  cases h with
  | base hb => cases hb
  | exchangeOff h => exact ⟨rfl,rfl⟩

/-- If no thread is moved inside of them, cpu_disable_interrupts and bios_set_timer change
the core alone on which they return, and the former returns with its interrupts off. -/
theorem leaf_local (hr : ((system κ τ ρ).restrict LeafStays).Reachable s) :
    ∀ d∈s.done, (∀ k∈d.wrote, k = d.core) ∧
      (d.call = .cpuDisableInterrupts → d.intDisabled = true ∧ d.blocked = true) := by
  induction hr with
  | init h =>
    obtain ⟨serial,rfl⟩ := h
    simp [boot]
  | @step s s' a hr hstep ih =>
    obtain ⟨hg,-,hl⟩ := reachable_leaf hr
    have hg' := (reachable_leaf (.step hr hstep)).1
    obtain ⟨-,hs⟩ := System.restrict_next hstep
    cases next_logs hs with
    | none hdone hentries hreturns => rwa [hdone]
    | returns c f rest was htop hf hdone hentries hreturns => rwa [hdone]
    | enters c k i is rest htop hh hdone hentries hreturns => rwa [hdone]
    | leaf c f rest d htop htop' hcore hwrote hcall hflags hdone hentries hreturns =>
      rw [hdone, List.forall_mem_append]
      refine ⟨ih,List.forall_mem_singleton.mpr ⟨fun k hk => ?_,fun hd => ?_⟩⟩
      · rw [hcore]
        exact (hwrote k hk).elim (hl c f (by simp [htop]) k) id
      · obtain ⟨pc,w,rfl⟩ := hcall hd
        have hfit := hg.fits c
        rw [htop] at hfit
        obtain ⟨l,rfl⟩ := hfit.of_disable
        have hfit' := hg'.fits c
        rw [htop'] at hfit'
        rw [hflags.1, hflags.2]
        exact hfit'.of_exchangeOff

theorem leaf_local_migrated : ∃ s : State (Fin 2) (Fin 2) Unit,
    (s.cur 1 = .normal 0 ∧ s.done.length = 10) ∧
      ∀ d∈s.done, (∀ k∈d.wrote, k = d.core) ∧
        (d.call = .cpuDisableInterrupts → d.intDisabled = true ∧ d.blocked = true) := by
  obtain ⟨s,hr,hs⟩ := System.reaches ((system (Fin 2) (Fin 2) Unit).restrict LeafStays)
    ⟨fun c => decide (c = 0),rfl⟩ (startRun++migrateRun++List.replicate 33 (.run 1))
    (fun s => s.cur 1 = .normal 0 ∧ s.done.length = 10) (by decide +kernel)
  exact ⟨s,hs,leaf_local hr⟩

/-- The first thread has called curr_core in cpu_disable_interrupts when an ALARM preempts
it in favour of the second. Core 1 goes on with it: it blocks SIGUSR1 there and sets
int_disabled of core 0. -/
theorem leaf_crosses : ¬∀ s : State (Fin 2) (Fin 2) Unit, (system (Fin 2) (Fin 2) Unit).Reachable s →
    ∀ d∈s.done, (∀ k∈d.wrote, k = d.core) ∧
      (d.call = .cpuDisableInterrupts → d.intDisabled = true ∧ d.blocked = true) := by
  intro h
  obtain ⟨s,hr,hs⟩ := (system (Fin 2) (Fin 2) Unit).reaches
    ⟨fun c => decide (c = 0),rfl⟩ (startRun++.call 0 (.bracket .wakeup)::List.replicate 3 (.run 0)++
      migrateRun++List.replicate 36 (.run 1))
    (fun s => ⟨.cpuDisableInterrupts,[1,0],1,false,true⟩∈s.done) (by decide +kernel)
  have := (h s hr _ hs).1 0 (by simp)
  simp at this

end TinyOS.Bios
