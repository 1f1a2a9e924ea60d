import TinyOS.Bios.Steps

/-! The contexts of the cores, and what the calls in them hold, wherever the signals fall
and wherever the threads go. -/
namespace TinyOS.Bios
open Transition
variable {κ τ ρ : Type*}

/-- No context is on two cores or switched out on one; at the bottom of each is the code
of its thread. -/
structure Contexts (s : State κ τ ρ) : Prop where
  live : ∀ c, s.saved (s.cur c) = none
  inj : ∀ c c', s.cur c = s.cur c' → c = c'
  top : ∀ c, .body∈(s.top c).getLast?
  out : ∀ x b, s.saved x = some b → .body∈(s.stack x).getLast?

theorem getLast_cons (f : Frame κ) {l : List (Frame κ)} (h : .body∈l.getLast?) :
    .body∈(f::l).getLast? := by
  rw [Option.mem_def] at h
  simp [List.getLast?_cons, h]

theorem getLast_of_cons {f : Frame κ} {l : List (Frame κ)} (hf : f≠.body)
    (h : .body∈(f::l).getLast?) :
    .body∈l.getLast? := by
  cases l with
  | nil =>
    obtain rfl : f = .body := by simpa using h
    exact absurd rfl hf
  | cons g l => simpa using h

theorem getLast_saveResult (old : Bool) {l : List (Frame κ)} (h : .body∈l.getLast?) :
    .body∈(saveResult old l).getLast? := by
  unfold saveResult
  split
  · exact getLast_cons _ (getLast_of_cons (by simp) h)
  · exact getLast_cons _ (getLast_of_cons (by simp) h)
  · exact h

theorem getLast_unblocked {l : List (Frame κ)} (h : .body∈l.getLast?) :
    .body∈(unblocked l).getLast? := by
  rw [Option.mem_def] at h
  simp [unblocked, List.getLast?_map, h]

variable {s s' : State κ τ ρ} {c : κ} {l rest : List (Frame κ)}

theorem Goes.ground {f : Frame κ} (hg : Goes s s' c f rest) (h : .body∈(f::rest).getLast?)
    (ground : f = .body → ∃ g, s'.stack (s.cur c) = g::f::rest) :
    .body∈(s'.stack (s.cur c)).getLast? := by
  cases rest with
  | nil =>
    obtain rfl : f = .body := by simpa [eq_comm] using h
    obtain ⟨g,hg⟩ := ground rfl
    simp [hg]
  | cons g rest =>
    have h : .body∈(g::rest).getLast? := by simpa using h
    have happ : ∀ gs : List (Frame κ), .body∈(gs++g::rest).getLast? := fun gs => by
      simpa using h
    cases hg with
    | goto gs hd top mask =>
      rw [top]
      exact happ gs
    | save old top mask =>
      rw [top]
      exact getLast_saveResult old h
    | unblock gs hd top =>
      rw [top]
      exact getLast_unblocked (happ gs)
    | deliver gs hd hgs top mask =>
      rw [top]
      exact getLast_cons _ (getLast_unblocked (happ gs))
    | sigreturn k o hf top =>
      rw [top]
      exact h

variable [DecidableEq κ] [DecidableEq τ] [DecidableEq ρ]

omit [DecidableEq κ] [DecidableEq τ] [DecidableEq ρ] in
theorem Contexts.ne_cur {x : Ctx κ τ} {b : Bool} (h : Contexts s) (hx : s.saved x = some b)
    (c : κ) :
    x≠s.cur c := by
  intro he
  rw [he, h.live c] at hx
  cases hx

omit [DecidableEq κ] [DecidableEq τ] [DecidableEq ρ] in
theorem Contexts.ne_new {t : τ} (h : Contexts s) (hnew : s.stack (.normal t) = []) (c : κ) :
    s.cur c≠.normal t := by
  intro he
  have := h.top c
  rw [State.top, he, hnew] at this
  cases this

theorem next_contexts {a : Label κ τ ρ} (h : Contexts s) (hs : next s a = some s') :
    Contexts s' := by
  -- a step on core c, from whose stack the code of the thread is not lost
  have step : ∀ c, Elsewhere s s' c → .body∈(s'.stack (s.cur c)).getLast? → Contexts s' := by
    intro c he hc
    refine ⟨fun c' => ?_,fun c1 c2 => ?_,fun c' => ?_,fun x b hx => ?_⟩
    · rw [he.cur, he.saved]
      exact h.live c'
    · rw [he.cur]
      exact h.inj c1 c2
    · rw [State.top, he.cur]
      by_cases hcc : c' = c
      · subst hcc
        exact hc
      · rw [he.stack _ fun hcur => hcc (h.inj _ _ hcur)]
        exact h.top c'
    · rw [he.saved] at hx
      rw [he.stack x (h.ne_cur hx c)]
      exact h.out x b hx
  cases next_change hs with
  | goes c f rest top hg he ground => exact step c he (hg.ground (top ▸ h.top c) ground)
  | deliver c free mask top he =>
    refine step c he ?_
    rw [top]
    exact getLast_cons _ (h.top c)
  | swap c x was preempt mask rest top saved on cur stack saved' mask' =>
    have hx : ∀ c', x≠s.cur c' := h.ne_cur saved
    have htop := h.top c
    rw [top] at htop
    refine ⟨fun c' => ?_,fun c1 c2 he => ?_,fun c' => ?_,fun y b hy => ?_⟩
    · rw [cur, saved']
      by_cases hc : c' = c
      · subst hc
        simp
      · have hne : s.cur c'≠s.cur c := fun he => hc (h.inj _ _ he)
        simpa [hc, (hx c').symm, hne] using h.live c'
    · rw [cur] at he
      by_cases hc1 : c1 = c <;> by_cases hc2 : c2 = c
      · rw [hc1, hc2]
      · simp [hc1, hc2] at he
        exact absurd he (hx c2)
      · simp [hc1, hc2] at he
        exact absurd he.symm (hx c1)
      · simp [hc1, hc2] at he
        exact h.inj _ _ he
    · rw [State.top, cur, stack]
      by_cases hc : c' = c
      · subst hc
        simpa [hx c'] using h.out x mask saved
      · have hne : s.cur c'≠s.cur c := fun he => hc (h.inj _ _ he)
        simpa [hc, hne, State.top] using h.top c'
    · rw [saved'] at hy
      rw [stack]
      by_cases hyx : y = x
      · subst hyx
        simp at hy
      · by_cases hyc : y = s.cur c
        · subst hyc
          rw [Function.update_self]
          exact getLast_cons _ (getLast_cons _ (getLast_of_cons (by simp) htop))
        · have hy' : s.saved y = some b := by simpa [hyx, hyc] using hy
          simpa [hyc] using h.out y b hy'
  | spawn c t new hnew =>
    subst hnew
    have hcur := h.ne_new new
    refine ⟨fun c' => ?_,h.inj,fun c' => ?_,fun y b hy => ?_⟩
    · simpa [cpuInitializeContext, hcur c'] using h.live c'
    · simpa [State.top, cpuInitializeContext, hcur c'] using h.top c'
    · by_cases hyt : y = .normal t
      · subst hyt
        simp [cpuInitializeContext]
      · have hy' : s.saved y = some b := by simpa [cpuInitializeContext, hyt] using hy
        simpa [cpuInitializeContext, hyt] using h.out y b hy'
  | same cur stack saved mask =>
    refine ⟨fun c' => ?_,fun c1 c2 => ?_,fun c' => ?_,fun y b hy => ?_⟩
    · rw [cur, saved]
      exact h.live c'
    · rw [cur]
      exact h.inj c1 c2
    · rw [State.top, cur, stack]
      exact h.top c'
    · rw [saved] at hy
      rw [stack]
      exact h.out y b hy

omit [DecidableEq κ] [DecidableEq τ] [DecidableEq ρ] in
theorem boot_contexts (serial : κ → Bool) : Contexts (boot serial : State κ τ ρ) := by
  refine ⟨fun _ => rfl,fun c c' he => by
    simpa [boot] using he,fun c => ?_,fun x b hx => by cases hx⟩
  simp [State.top, boot]

theorem reachable_contexts (hr : (system κ τ ρ).Reachable s) : Contexts s := by
  refine System.invariant _ Contexts ?_ (fun _ _ _ h hs => next_contexts h hs) hr
  rintro s ⟨serial,rfl⟩
  exact boot_contexts serial

structure Held (P : κ → Frame κ → Prop) : Prop where
  derived : ∀ {c f gs}, Derived c f gs → P c f → ∀ g∈gs, P c g
  neutral : ∀ c {f}, f.neutral = true → P c f
  unblocked : ∀ {c k o pc}, P c (.sigusr1 k o pc) → P c (.sigusr1 k true pc)
  deliver : ∀ c, P c (.sigusr1 c false .enter)

section
variable {P : κ → Frame κ → Prop}
omit [DecidableEq κ] [DecidableEq τ] [DecidableEq ρ]

theorem Held.saveResult (hP : Held P) (old : Bool) (h : ∀ f∈l, P c f) :
    ∀ f∈saveResult old l, P c f := by
  unfold Bios.saveResult
  split
  · exact List.forall_mem_cons.mpr ⟨hP.neutral c rfl,(List.forall_mem_cons.mp h).2⟩
  · exact List.forall_mem_cons.mpr ⟨hP.neutral c rfl,(List.forall_mem_cons.mp h).2⟩
  · exact h

theorem Held.map_unblocked (hP : Held P) (h : ∀ f∈l, P c f) : ∀ f∈Bios.unblocked l, P c f := by
  intro g hg
  obtain ⟨f,hf,rfl⟩ := List.mem_map.mp hg
  cases f with
  | sigusr1 k o pc => exact hP.unblocked (h _ hf)
  | _ => exact h _ hf

theorem Held.goes (hP : Held P) {f : Frame κ} (hg : Goes s s' c f rest) (h : ∀ g∈f::rest, P c g) :
    ∀ g∈s'.stack (s.cur c), P c g := by
  obtain ⟨hf,hrest⟩ := List.forall_mem_cons.mp h
  cases hg with
  | goto gs hd top mask =>
    rw [top]
    exact List.forall_mem_append.mpr ⟨hP.derived hd hf,hrest⟩
  | save old top mask =>
    rw [top]
    exact hP.saveResult old hrest
  | unblock gs hd top =>
    rw [top]
    exact hP.map_unblocked (List.forall_mem_append.mpr ⟨hP.derived hd hf,hrest⟩)
  | deliver gs hd hgs top mask =>
    rw [top]
    exact List.forall_mem_cons.mpr ⟨hP.deliver c,
      hP.map_unblocked (List.forall_mem_append.mpr ⟨hP.derived hd hf,hrest⟩)⟩
  | sigreturn k o hf top =>
    rw [top]
    exact hrest

end

theorem next_held {P : κ → Frame κ → Prop} (hP : Held P) {a : Label κ τ ρ} (h : Contexts s)
    (hc : ∀ c, ∀ f∈s.top c, P c f) (hswap : ∀ c x, a = .swap c x → ∀ f∈s.stack x, P c f)
    (hs : next s a = some s') : ∀ c, ∀ f∈s'.top c, P c f := by
  have step : ∀ c, Elsewhere s s' c → (∀ f∈s'.stack (s.cur c), P c f) → ∀ c, ∀ f∈s'.top c,
    P c f := by
    intro c he hf c'
    rw [State.top, he.cur]
    by_cases hcc : c' = c
    · subst hcc
      exact hf
    · rw [he.stack _ fun hcur => hcc (h.inj _ _ hcur)]
      exact hc c'
  cases next_change hs with
  | goes c f rest top hg he ground => exact step c he (hP.goes hg (top ▸ hc c))
  | deliver c free mask top he =>
    refine step c he ?_
    rw [top]
    exact List.forall_mem_cons.mpr ⟨hP.deliver c,hc c⟩
  | swap c x was preempt mask rest top saved on cur stack saved' mask' =>
    intro c'
    rw [State.top, cur, stack]
    by_cases hcc : c' = c
    · subst hcc
      simpa [h.ne_cur saved c'] using hswap c' x rfl
    · have hne : s.cur c'≠s.cur c := fun he => hcc (h.inj _ _ he)
      simpa [hcc, hne, State.top] using hc c'
  | spawn c t new hnew =>
    subst hnew
    intro c'
    simpa [State.top, cpuInitializeContext, h.ne_new new c'] using hc c'
  | same cur stack saved mask =>
    intro c'
    rw [State.top, cur, stack]
    exact hc c'

def startRun : List (Label (Fin 2) (Fin 2) Unit) :=
  [.spawn 0 0, .call 0 .yield]++List.replicate 13 (.run 0)++.swap 0 (.normal 0)::List.replicate 26 (.run 0)++
    [.spawn 0 1, .call 0 (.bracket .wakeup)]++List.replicate 7 (.run 0)++[.restartOne, .finish 0]++
    List.replicate 19 (.run 0)

def raiseRun (c : Fin 2) (i : Interrupt) : List (Label (Fin 2) (Fin 2) Unit) :=
  .raise () c i::List.replicate 3 (.raiseNext ())

def alarmRun : List (Label (Fin 2) (Fin 2) Unit) :=
  raiseRun 0 .ALARM++.deliver 0::List.replicate 20 (.run 0)

def migrateRun : List (Label (Fin 2) (Fin 2) Unit) :=
  alarmRun++.swap 0 (.normal 1)::List.replicate 26 (.run 0)++.call 1 .yield::List.replicate 13 (.run 1)++
    [.swap 1 (.normal 0)]

end TinyOS.Bios
