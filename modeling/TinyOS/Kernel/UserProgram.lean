import TinyOS.Lib.Program
import TinyOS.Kernel.Devices

/-! A process runs a sequential program. Its calls act on its own table of devices, and no
other process does; all processes and interrupts go on between them. -/
namespace TinyOS.Kernel
open RList Tally Transition Sequential

section Threads
variable {s s' s'' : State} {p q : PcbRef} {E : Option Thread → Prop}

def Turns (p : PcbRef) (E : Option Thread → Prop) (s s' : State) : Prop :=
  s'.thread = s.thread ∨ ∃ t, E t ∧ s'.thread = Function.update s.thread p t

theorem Turns.trans (h : Turns p E s s') (h' : Turns p E s' s'') : Turns p E s s'' := by
  rcases h with h|⟨t,ht,h⟩
  · rwa [Turns, h] at h'
  · rcases h' with h'|⟨t',ht',h'⟩
    · exact .inr ⟨t,ht,h'.trans h⟩
    · exact .inr ⟨t',ht',by rw [h', h, Function.update_idem]⟩

theorem turns_awaitChild {child : PcbRef} {status : Bool}
    (hE : E (some (.waitChild child status))) : Turns p E s (awaitChild s p child status).1 := by
  unfold awaitChild
  split
  · exact .inr ⟨_,hE,rfl⟩
  · exact .inl rfl

theorem turns_waitForSpecificChild {cpid : Int} {status : Bool}
    (hE : ∀ child, E (some (.waitChild child status))) :
    Turns p E s (waitForSpecificChild s p cpid status).1 := by
  unfold waitForSpecificChild
  split
  · split
    · exact .inl rfl
    · split
      · exact .inl rfl
      · exact turns_awaitChild (hE _)
  · exact .inl rfl

theorem turns_awaitAny {status : Bool} {t : Thread} {r : State × Option WaitResult}
    (hE : E (some t)) (h : awaitAny s p status t = some r) : Turns p E s r.1 := by
  unfold awaitAny at h
  split at h
  · cases h
    exact .inr ⟨_,hE,rfl⟩
  · split at h
    · cases h
    · split at h
      · cases h
        exact .inl rfl
      · cases h

theorem turns_waitForAnyChild {status : Bool} {t : Thread} {r : State × Option WaitResult}
    (hE : E (some t)) (h : waitForAnyChild s p status t = some r) : Turns p E s r.1 := by
  unfold waitForAnyChild at h
  split at h
  · cases h
    exact .inl rfl
  · exact turns_awaitAny hE h

theorem returnWait_thread (p : PcbRef) (status : Bool) (r : State × Option WaitResult) :
    (returnWait p status r).thread = r.1.thread := by
  obtain ⟨s,o⟩ := r
  cases o <;> rfl

theorem turns_exitLoop {v : Int} (hE : E (some (.exitWait v))) {fuel : Nat} {s : State}
    {r : State × Bool} (h : exitLoop p v fuel s = some r) : Turns p E s r.1 := by
  induction fuel generalizing s with
  | zero => cases h
  | succ fuel ih =>
    obtain ⟨⟨s1,o⟩,hw,h⟩ := Option.bind_eq_some_iff.mp h
    have h1 : Turns p E s s1 := turns_waitForAnyChild hE hw
    cases o with
    | none =>
      cases h
      exact h1
    | some x =>
      obtain ⟨ret,stored⟩ := x
      simp only at h
      split at h
      · exact h1.trans (ih (s := s1.record (.wait p ret false stored)) h)
      · cases h
        exact h1

theorem turns_leaveExitLoop {v : Int} (hE : ∀ t, E t) {r : State × Bool}
    (h : leaveExitLoop p v r = some s') : Turns p E r.1 s' := by
  obtain ⟨s1,b⟩ := r
  cases b with
  | false =>
    cases h
    exact .inl rfl
  | true =>
    obtain ⟨s2,s3,h2,h3,hth,-⟩ := exitTail_wakes h
    exact .inr ⟨none,hE none,by rw [hth, h3.thread, h2.thread]⟩

theorem turns_sysExit {v : Int} (hE : ∀ t, E t) (h : sysExit s p v = some s') :
    Turns p E s s' := by
  unfold sysExit at h
  split at h
  · obtain ⟨r,hr,h⟩ := Option.bind_eq_some_iff.mp h
    exact (turns_exitLoop (hE _) hr).trans (turns_leaveExitLoop hE h)
  · exact turns_leaveExitLoop (r := (s,true)) hE h

theorem turns_devread {f : FcbRef} {obj : Option Nat} {size inp : Nat} {valid : Nat → Bool}
    {ops : FileOps} (hE : ∀ port, E (some (.reading f port size))) {r : State × Option Int}
    (h : devread s p f obj size inp valid ops = some r) : Turns p E s r.1 := by
  have hfin : ∀ n, finishRead s f n = some r → Turns p E s r.1 := by
    intro n hn
    obtain ⟨x,-,rfl⟩ := Option.map_eq_some_iff.mp hn
    exact .inl rfl
  cases ops with
  | nulldev => exact hfin _ h
  | stdio => exact hfin _ h
  | serial =>
    obtain ⟨port,-,h⟩ := Option.bind_eq_some_iff.mp h
    split at h
    · cases h
      exact .inr ⟨_,hE port,rfl⟩
    · exact hfin _ h

theorem turns_resume {valid : Nat → Bool} (h : resume s p valid = some s')
    (hE : ∀ t, (∀ v, t≠.exitWait v) → E (some t))
    (hexit : (∃ v, s.thread p = some (.exitWait v)) → ∀ t, E t) : Turns p E s s' := by
  obtain ⟨t,ht,h⟩ := Option.bind_eq_some_iff.mp h
  have hback : Turns p E s (s.setThread p (some .user)) :=
    .inr ⟨_,hE .user fun _ => Thread.noConfusion,rfl⟩
  cases t with
  | user => cases h
  | waitChild child status =>
    cases h
    refine hback.trans ?_
    rw [Turns, returnWait_thread]
    exact turns_awaitChild (hE _ fun _ => Thread.noConfusion)
  | waitAny status =>
    obtain ⟨r,hr,rfl⟩ := Option.map_eq_some_iff.mp h
    refine hback.trans ?_
    rw [Turns, returnWait_thread]
    exact turns_awaitAny (hE _ fun _ => Thread.noConfusion) hr
  | exitWait v =>
    have hall := hexit ⟨v,ht⟩
    obtain ⟨⟨s1,o⟩,hr,h⟩ := Option.bind_eq_some_iff.mp h
    have h1 := hback.trans (turns_awaitAny (hall _) hr)
    cases o with
    | none =>
      cases h
      exact h1
    | some x =>
      obtain ⟨ret,stored⟩ := x
      obtain ⟨r,hloop,h⟩ := Option.bind_eq_some_iff.mp h
      have h2 := turns_exitLoop (s := s1.record (.wait p ret false stored)) (hall _) hloop
      exact h1.trans (h2.trans (turns_leaveExitLoop hall h))
  | reading f port size =>
    obtain ⟨r,hr,rfl⟩ := Option.map_eq_some_iff.mp h
    exact hback.trans (turns_devread (fun _ => hE _ fun _ => Thread.noConfusion) hr)

theorem Turns.running (h : Turns q (fun o => q = p → ∃ t, o = some t ∧ ∀ v, t≠.exitWait v) s s')
    (hp : Running s p) : Running s' p := by
  rcases h with h|⟨t,ht,h⟩
  · rwa [Running, h]
  · by_cases hq : q = p
    · obtain ⟨t',ht',hv⟩ := ht hq
      exact ⟨t',by rw [h, ← hq, Function.update_self, ht'],hv⟩
    · rwa [Running, h, Function.update_of_ne (Ne.symm hq)]

theorem sysExec_running (call : Bool) (argl : Nat) (args : Option (List UInt8))
    (hp : Running s p) : Running (sysExec s q call argl args).1 p := by
  unfold sysExec
  split
  · exact hp
  · rename_i procs r _
    dsimp only
    split
    · exact Turns.running (q := r) (.inr ⟨_,fun _ => ⟨.user,rfl,fun _ => Thread.noConfusion⟩,rfl⟩) hp
    · exact hp

theorem step_running {a : Label} (hs : step s a = some s') (hp : Running s p)
    (hexit : ∀ v, a≠.exit p v) : Running s' p := by
  have hfiles : ∀ r, s.withFiles r = some s' → Running s' p := by
    intro r hr
    obtain ⟨x,-,rfl⟩ := Option.map_eq_some_iff.mp hr
    exact hp
  have hE : ∀ (q : PcbRef) (t : Thread), (∀ v, t≠.exitWait v) →
      q = p → ∃ t', some t = some t' ∧ ∀ v, t'≠.exitWait v := fun _ t ht _ => ⟨t,rfl,ht⟩
  cases a with
  | exec q call argl args =>
    cases hs
    exact sysExec_running call argl args hp
  | exit q v =>
    have hqp : q≠p := fun hqp => hexit v (by rw [hqp])
    exact (turns_sysExit (fun _ h => absurd h hqp) hs).running hp
  | waitChild q cpid status =>
    obtain ⟨r,hr,rfl⟩ := Option.map_eq_some_iff.mp hs
    refine Turns.running (q := q) (s := s) ?_ hp
    rw [Turns, returnWait_thread]
    unfold sysWaitChild at hr
    split at hr
    · cases hr
      exact turns_waitForSpecificChild fun _ => hE q _ fun _ => Thread.noConfusion
    · exact turns_waitForAnyChild (hE q _ fun _ => Thread.noConfusion) hr
  | openNull q => exact hfiles _ hs
  | openTerminal q termno => exact hfiles _ hs
  | console q =>
    obtain ⟨files,-,rfl⟩ := Option.map_eq_some_iff.mp hs
    exact hp
  | close q fd => exact hfiles _ hs
  | dup2 q oldfd newfd => exact hfiles _ hs
  | read q fd size inp valid =>
    obtain ⟨r,hr,rfl⟩ := Option.map_eq_some_iff.mp hs
    unfold sysRead at hr
    split at hr
    · cases hr
      exact hp
    · rename_i f _
      obtain ⟨ops,-,hr⟩ := Option.bind_eq_some_iff.mp hr
      exact (turns_devread (fun _ => hE q _ fun _ => Thread.noConfusion) hr).running
        (s := { s with files := incref s.files f }) hp
  | write q fd size fuel out accept => exact hfiles _ hs
  | resume q valid =>
    refine (turns_resume hs (hE q) fun hv t hqp => ?_).running hp
    obtain ⟨v,hv⟩ := hv
    obtain ⟨t',ht',hne⟩ := hp
    rw [← hqp, hv, Option.some.injEq] at ht'
    exact absurd ht'.symm (hne v)
  | serialRx =>
    cases hs
    exact hp
  | releaseTCB =>
    cases hs
    exact hp

end Threads

section Client
variable {s s' : State} {p : PcbRef}

inductive Call where
  | openNull
  | openTerminal (termno : Nat)
  | console
  | close (fd : Int)
  | dup2 (oldfd newfd : Int)
  | exec (argl : Nat) (args : Option (List UInt8))
  | waitChild (cpid : Int) (status : Bool)

def Call.label (p : PcbRef) : Call → Label
  | .openNull => .openNull p
  | .openTerminal termno => .openTerminal p termno
  | .console => .console p
  | .close fd => .close p fd
  | .dup2 oldfd newfd => .dup2 p oldfd newfd
  | .exec argl args => .exec p true argl args
  | .waitChild cpid status => .waitChild p cpid status

def Supplied (p : PcbRef) (s : State) : Label → Prop
  | .openNull q | .openTerminal q _ => q = p → (nextFCB s.files).isSome = true
  | _ => True

instance (p : PcbRef) (s : State) (a : Label) : Decidable (Supplied p s a) :=
  match a with
  | .openNull q | .openTerminal q _ => inferInstanceAs (Decidable (q = p → _ = true))
  | .exec _ _ _ _ | .exit _ _ | .waitChild _ _ _ | .console _ | .close _ _ | .dup2 _ _ _
  | .read _ _ _ _ _ | .write _ _ _ _ _ _ | .resume _ _ | .serialRx | .releaseTCB =>
    inferInstanceAs (Decidable True)

/-- Process p runs a program, and the kernel does not run out of FCBs for it. What WaitChild
returns, then or when p is resumed, is left open. -/
def client (p : PcbRef) : Client State Label Call Int where
  system := system.restrict (Supplied p)
  label := Call.label p
  answer s i r := match i with
    | .console | .waitChild _ _ => True
    | i => returned s (i.label p) = some r
  other _ a := a.proc≠some p ∨ ∃ valid, a = .resume p valid

def sem (ports : Nat) (T : StreamTable) (i : Call) (r : Int) (T' : StreamTable) : Prop :=
  match i with
  | .openNull => (T',r) = T.opened true (deviceOpen ports .DEV_NULL 0)
  | .openTerminal termno => (T',r) = T.opened true (deviceOpen ports .DEV_SERIAL termno)
  | .console => T 0 = none ∧ T 1 = none ∧ T' = T.console
  | .close fd => (T',r) = T.closed fd
  | .dup2 oldfd newfd => (T',r) = T.dup2 oldfd newfd
  | .exec _ _ | .waitChild _ _ => T' = T

structure Hosts (ports : Nat) (p : PcbRef) (s : State) : Prop where
  reachable : system.Reachable s
  running : Running s p
  ports : s.serialPorts = ports

theorem step_ports {L : Kin → List PcbRef} {fl : List PcbRef} (h : Inv s L fl) {a : Label}
    (ha : Enabled s a) (hs : step s a = some s') (hp : Running s p) (hp' : Running s' p) :
    s'.serialPorts = s.serialPorts := by
  by_cases hcon : a = .console p
  · rw [hcon] at hs
    obtain ⟨files,-,rfl⟩ := Option.map_eq_some_iff.mp hs
    rfl
  · exact (step_table h ha hs hp hp' hcon).1

theorem Hosts.next {ports : Nat} (h : Hosts ports p s) {a : Label} (hexit : ∀ v, a≠.exit p v)
    (hn : system.next s a = some s') : Hosts ports p s' ∧ ∃ L fl, Inv s L fl ∧ Enabled s a ∧
      step s a = some s' := by
  obtain ⟨L,fl,hinv⟩ := reachable_inv h.reachable
  have hstep : Enabled s a ∧ step s a = some s' := by
    simp only [system] at hn
    split at hn
    · exact ⟨‹_›,hn⟩
    · cases hn
  have hrun := step_running hstep.2 h.running hexit
  exact ⟨⟨.step h.reachable hn,hrun,(step_ports hinv hstep.1 hstep.2 h.running hrun).trans h.ports⟩,
    L,fl,hinv,hstep⟩

theorem Call.label_not_exit (i : Call) (v : Int) : i.label p≠.exit p v := by
  cases i <;> exact Label.noConfusion

theorem client_other {ports : Nat} {a : Label} (h : Hosts ports p s)
    (ho : (client p).other s a) (hn : (client p).system.next s a = some s') :
    Hosts ports p s' ∧ s'.streams p = s.streams p := by
  obtain ⟨-,hn⟩ := System.restrict_next hn
  have hexit : ∀ v, a≠.exit p v := by
    rintro v rfl
    rcases ho with ho|⟨valid,ho⟩
    · exact ho rfl
    · cases ho
  obtain ⟨h',L,fl,hinv,ha,hs⟩ := h.next hexit hn
  obtain ⟨t,ht,hnot⟩ := h.running
  refine ⟨h',?_⟩
  rcases ho with ho|⟨valid,rfl⟩
  · exact step_private hinv ha hs (hinv.alive p (by simp [ht])) ho
  · rcases resume_streams hinv hs with hV|⟨⟨v,hv⟩,-⟩
    · rw [hV]
    · rw [ht, Option.some.injEq] at hv
      exact absurd hv (hnot v)

theorem client_call {ports : Nat} {i : Call} {r : Int} (h : Hosts ports p s)
    (ha : (client p).answer s i r) (hn : (client p).system.next s (i.label p) = some s') :
    Hosts ports p s' ∧ sem ports (s.streams p) i r (s'.streams p) := by
  obtain ⟨hsup,hn⟩ := System.restrict_next hn
  obtain ⟨h',L,fl,hinv,hen,hs⟩ := h.next (i.label_not_exit) hn
  have hmove := step_moves hinv hen hs
  refine ⟨h',?_⟩
  have hcall : ∀ {x : StreamTable × Int}, returned s (i.label p) = some r →
      returned s (i.label p) = some x.2 ∧ s'.streams = Function.update s.streams p x.1 →
      (s'.streams p,r) = x := by
    rintro x hr ⟨hx,hV⟩
    rw [hV, Function.update_self, Option.some.inj (hr.symm.trans hx)]
  cases i with
  | openNull =>
    rw [show (nextFCB s.files).isSome = true from hsup rfl, h.ports] at hmove
    exact hcall ha hmove
  | openTerminal termno =>
    rw [show (nextFCB s.files).isSome = true from hsup rfl, h.ports] at hmove
    exact hcall ha hmove
  | console =>
    obtain ⟨h0,h1,hV⟩ := hmove
    exact ⟨h0,h1,by rw [hV, Function.update_self]⟩
  | close fd => exact hcall ha hmove
  | dup2 oldfd newfd => exact hcall ha hmove
  | exec argl args =>
    rcases hmove with ⟨-,hV⟩|⟨r,hr,-,-,hV⟩
    · rw [sem, hV]
    · rw [sem, hV, Function.update_of_ne hr.symm]
  | waitChild cpid status => rw [sem, show s'.streams = s.streams from hmove]

section Programs
variable {ports : Nat} {δ γ : Type} {c c' : Sequential.Program Call Int δ} {t : State}
  {h : List (State × Call × Int)}

/-- An outline over the table of a process holds whatever the other processes do. -/
theorem client_outline {note : γ → StreamTable → Call → Int → γ} {I : γ → Prop}
    {Q : γ → StreamTable → Option δ → Prop} {g : γ} (hs : Hosts ports p s)
    (hr : (client p).Runs c s h c' t) (hc : Outline (sem ports) note I c Q g (s.streams p)) :
    Outline (sem ports) note I c' Q (Client.noted (State.streams · p) note h g) (t.streams p) :=
  (hr.outline (fun _ _ _ => client_other) (fun _ _ _ _ => client_call) hs hc).2

theorem client_starts (hs : Hosts ports p s) (hr : (client p).Runs c s h c' t) {s1 : State}
    {argl : Nat} {args : Option (List UInt8)} {r : Int} (he : (s1,.exec argl args,r)∈h)
    (hne : r≠NOPROC) : ∃ s2 q, system.next s1 (.exec p true argl args) = some s2 ∧ r = q.val ∧
      s2.streams q = s1.streams p := by
  obtain ⟨hs1,ha,s2,hn⟩ := hr.calls (fun _ _ _ hP ho hn => (client_other hP ho hn).1)
    (fun _ _ _ _ hP ha hn => (client_call hP ha hn).1) hs _ he
  obtain ⟨-,hn⟩ := @System.restrict_next _ _ system (Supplied p) _ s1 s2
    (.exec p true argl args) hn
  obtain ⟨-,L,fl,hinv,hen,hs⟩ := hs1.next (fun _ => Label.noConfusion) hn
  rcases step_moves hinv hen hs with ⟨hret,-⟩|⟨q,-,-,hret,hV⟩
  · exact absurd (Option.some.inj (ha.symm.trans hret)) hne
  · exact ⟨s2,q,hn,Option.some.inj (ha.symm.trans hret),by rw [hV, Function.update_self]⟩

end Programs
end Client
end TinyOS.Kernel
