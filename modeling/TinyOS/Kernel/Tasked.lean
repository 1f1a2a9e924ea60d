import TinyOS.Kernel.Frame
import TinyOS.Kernel.Isolation

/-! What every run keeps of the streams and of the main threads: a serial stream has its
port, the scheduler process opens nothing, and where each Exec has a task each process but
the scheduler's has its thread. -/
namespace TinyOS.Kernel
open RList Tally Transition

section Files
variable {F F' F'' : Files} {f : FcbRef} {p : PcbRef}

def SameStreams (F F' : Files) : Prop :=
  ∀ f, (F'.FT f).streamobj = (F.FT f).streamobj ∧ (F'.FT f).streamfunc = (F.FT f).streamfunc

theorem SameStreams.refl (F : Files) : SameStreams F F := fun _ => ⟨rfl,rfl⟩

theorem SameStreams.trans (h : SameStreams F F') (h' : SameStreams F' F'') :
    SameStreams F F'' :=
  fun f => ⟨(h' f).1.trans (h f).1,(h' f).2.trans (h f).2⟩

theorem sameStreams_recount (F : Files) (f : FcbRef) (g : UInt32 → UInt32) :
    SameStreams F (F.modFCB f fun b => { b with refcount := g b.refcount }) := by
  intro e
  by_cases he : e = f
  · rw [he, Files.modFCB]
    simp only [Function.update_self, and_self]
  · rw [Files.modFCB]
    simp only [Function.update_of_ne he, and_self]

theorem sameStreams_incref (F : Files) (f : FcbRef) : SameStreams F (incref F f) :=
  sameStreams_recount F f (·+1)

theorem sameStreams_decref {r : Files × Int} (h : decref F f = some r) :
    SameStreams F r.1 := by
  have hF := sameStreams_recount F f (·-1)
  simp only [decref] at h
  split at h
  · obtain ⟨ops,-,rfl⟩ := Option.map_eq_some_iff.mp h
    exact hF
  · cases h
    exact hF

theorem sameStreams_releaseFCBs (l : List FcbRef) (F : Files) :
    SameStreams F (l.foldl releaseFCB F) := by
  induction l generalizing F with
  | nil => exact .refl F
  | cons f l ih => exact ih (releaseFCB F f)

theorem sameStreams_acquireFCB {r : Files × Option FcbRef} (h : acquireFCB F = some r) :
    SameStreams F r.1 := by
  unfold acquireFCB at h
  split at h
  · cases h
    exact .refl F
  · simp only at h
    split at h
    · cases h
    · rename_i f _
      cases h
      exact sameStreams_recount
        { F with heap := (rlistPopFront F.heap .FCB_freelist).1 } f fun _ => 0

theorem sameStreams_acquireFCBs (num : Nat) {r : Files × List FcbRef}
    (h : acquireFCBs num F = some r) : SameStreams F r.1 := by
  induction num generalizing F r with
  | zero =>
    cases h
    exact .refl F
  | succ num ih =>
    obtain ⟨⟨F1,o⟩,hacq,h⟩ := Option.bind_eq_some_iff.mp h
    have h1 := sameStreams_acquireFCB hacq
    cases o with
    | none =>
      cases h
      exact h1
    | some f =>
      obtain ⟨x,hx,rfl⟩ := Option.map_eq_some_iff.mp h
      exact h1.trans (ih (F := F1) (r := x) hx)

theorem sameStreams_install (p : PcbRef) (l : List (Fid × FcbRef)) (F : Files) :
    SameStreams F (l.foldl (installFCB p) F) := by
  induction l generalizing F with
  | nil => exact .refl F
  | cons x l ih =>
    exact (sameStreams_incref (F.setFid p x.1 (some x.2)) x.2).trans (ih (installFCB p F x))

theorem sameStreams_reserveFCB {num : Nat} {r : Files × Option (List Fid × List FcbRef)}
    (h : reserveFCB F p num = some r) : SameStreams F r.1 := by
  simp only [reserveFCB] at h
  split at h
  · cases h
    exact .refl F
  · obtain ⟨x,hx,rfl⟩ := Option.map_eq_some_iff.mp h
    have h1 := sameStreams_acquireFCBs num hx
    split
    · exact h1.trans (sameStreams_releaseFCBs x.2.reverse x.1)
    · exact h1.trans (sameStreams_install p _ x.1)

theorem sameStreams_unreserveFCB (l : List (Fid × FcbRef)) (h : unreserveFCB p l F = some F') :
    SameStreams F F' := by
  induction l generalizing F with
  | nil =>
    cases h
    exact SameStreams.refl _
  | cons x l ih =>
    unfold unreserveFCB at h
    split at h
    · exact ih (F := releaseFCB (F.setFid p x.1 none) x.2) h
    · cases h

theorem sameStreams_closeFids (l : List Fid) (h : l.foldlM (closeFid p) F = some F') :
    SameStreams F F' := by
  induction l generalizing F with
  | nil =>
    cases h
    exact SameStreams.refl _
  | cons fid l ih =>
    obtain ⟨F1,hclose,h⟩ := Option.bind_eq_some_iff.mp h
    refine SameStreams.trans ?_ (ih h)
    unfold closeFid at hclose
    split at hclose
    · cases hclose
      exact .refl F
    · obtain ⟨r,hr,rfl⟩ := Option.map_eq_some_iff.mp hclose
      exact sameStreams_decref hr

def Attached (ports : Nat) (F : Files) : Prop :=
  ∀ f, (F.FT f).streamfunc = some .serial → ∃ i < ports, (F.FT f).streamobj = some i

variable {ports : Nat}

theorem Attached.same (h : Attached ports F) (hs : SameStreams F F') : Attached ports F' := by
  intro f hf
  rw [(hs f).2] at hf
  rw [(hs f).1]
  exact h f hf

theorem Attached.setStream (h : Attached ports F) (f : FcbRef) {obj : Option Nat} {ops : FileOps}
    (hobj : ops = .serial → ∃ i < ports, obj = some i) : Attached ports (setStream F f obj ops) := by
  intro e he
  by_cases hef : e = f
  · rw [Kernel.setStream, Files.modFCB, hef] at he ⊢
    simp only [Function.update_self, Option.some.injEq] at he ⊢
    exact hobj he
  · rw [Kernel.setStream, Files.modFCB] at he ⊢
    simp only [Function.update_of_ne hef] at he ⊢
    exact h e he

theorem deviceOpen_port {major : DeviceType} {minor : Nat} {obj : Option Nat} {ops : FileOps}
    (h : deviceOpen ports major minor = some (obj,ops)) (hs : ops = .serial) :
    ∃ i < ports, obj = some i := by
  unfold deviceOpen at h
  split at h
  · cases h
  · cases major with
    | DEV_NULL =>
      cases h
      cases hs
    | DEV_SERIAL =>
      rename_i hm
      cases h
      exact ⟨minor,Nat.lt_of_not_le hm,rfl⟩

theorem Attached.openStream (h : Attached ports F) {major : DeviceType} {minor : Nat}
    {r : Files × Int} (hr : openStream F p ports major minor = some r) : Attached ports r.1 := by
  obtain ⟨⟨F1,o⟩,hres,hr⟩ := Option.bind_eq_some_iff.mp hr
  have h1 := h.same (sameStreams_reserveFCB hres)
  cases o with
  | none =>
    cases hr
    exact h1
  | some x =>
    obtain ⟨fids,fcbs⟩ := x
    cases fids with
    | nil =>
      cases hr
      exact h1
    | cons fid fids =>
      cases fcbs with
      | nil =>
        cases hr
        exact h1
      | cons fcb fcbs =>
        simp only at hr
        split at hr
        · obtain ⟨F2,hun,rfl⟩ := Option.map_eq_some_iff.mp hr
          exact h1.same (sameStreams_unreserveFCB _ hun)
        · rename_i obj ops hopen
          cases hr
          exact h1.setStream fcb (deviceOpen_port hopen)

theorem Attached.pseudoConsole (h : Attached ports F) (hF : pseudoConsole F p = some F') :
    Attached ports F' := by
  obtain ⟨⟨F1,o⟩,hres,hF⟩ := Option.bind_eq_some_iff.mp hF
  have h1 := h.same (sameStreams_reserveFCB hres)
  split at hF
  · rename_i heq
    cases heq
    cases hF
    exact (h1.setStream _ (by simp)).setStream _ (by simp)
  · cases hF

theorem sameStreams_setFcb (p : PcbRef) (fd : Int) (o : Option FcbRef) :
    SameStreams F (setFcb F p fd o) := by
  unfold setFcb
  split <;> exact .refl F

theorem sameStreams_close {fd : Int} {r : Files × Int} (h : sysClose F p fd = some r) :
    SameStreams F r.1 := by
  unfold sysClose at h
  split at h
  · cases h
    exact .refl F
  · exact (sameStreams_setFcb p fd none).trans (sameStreams_decref h)

theorem sameStreams_dup2 {oldfd newfd : Int} {r : Files × Int}
    (h : sysDup2 F p oldfd newfd = some r) : SameStreams F r.1 := by
  unfold sysDup2 at h
  split at h
  · cases h
    exact .refl F
  · split at h
    · cases h
      exact .refl F
    · split at h
      · obtain ⟨F1,hold,rfl⟩ := Option.map_eq_some_iff.mp h
        have h1 : SameStreams F F1 := by
          unfold decrefOld at hold
          split at hold
          · cases hold
            exact .refl F
          · obtain ⟨x,hx,rfl⟩ := Option.map_eq_some_iff.mp hold
            exact sameStreams_decref hx
        exact (h1.trans (sameStreams_incref F1 _)).trans (sameStreams_setFcb p newfd _)
      · cases h
        exact .refl F

theorem sameStreams_write {fd : Int} {size fuel out : Nat} {accept : Nat → Bool}
    {r : Files × Int} (h : sysWrite F p fd size fuel out accept = some r) :
    SameStreams F r.1 := by
  unfold sysWrite at h
  split at h
  · cases h
    exact .refl F
  · rename_i f _
    obtain ⟨ops,-,h⟩ := Option.bind_eq_some_iff.mp h
    obtain ⟨count,-,h⟩ := Option.bind_eq_some_iff.mp h
    obtain ⟨x,hx,rfl⟩ := Option.map_eq_some_iff.mp h
    have h1 := sameStreams_decref hx
    exact (sameStreams_incref F f).trans h1

end Files

section Threads
variable {s s' s'' : State} {p q : PcbRef}

structure Attends (s s' : State) : Prop where
  reads : ∀ q f i n, s'.thread q = some (.reading f i n) → s.thread q = some (.reading f i n)
  manned : ∀ q, (s'.procs.PT q).pstate = .ALIVE → s'.thread q = none →
    (s.procs.PT q).pstate = .ALIVE ∧ s.thread q = none

theorem Attends.trans (h : Attends s s') (h' : Attends s' s'') : Attends s s'' :=
  ⟨fun q f i n hq => h.reads q f i n (h'.reads q f i n hq),fun q ha hn =>
    have hq := h'.manned q ha hn
    h.manned q hq.1 hq.2⟩

theorem attends_same (hT : s'.thread = s.thread)
    (hP : ∀ q, (s'.procs.PT q).pstate = .ALIVE → (s.procs.PT q).pstate = .ALIVE) :
    Attends s s' :=
  ⟨fun _ _ _ _ hq => hT ▸ hq,fun q ha hn => ⟨hP q ha,hT ▸ hn⟩⟩

theorem attends_thread {t : Thread} (hT : s'.thread = Function.update s.thread p (some t))
    (hP : s'.procs = s.procs) (ht : t.reads = none) : Attends s s' := by
  constructor
  · intro q f i n hq
    rw [hT] at hq
    by_cases hqp : q = p
    · rw [hqp, Function.update_self] at hq
      cases hq
      cases ht
    · rwa [Function.update_of_ne hqp] at hq
  · intro q ha hn
    rw [hT] at hn
    by_cases hqp : q = p
    · rw [hqp, Function.update_self] at hn
      cases hn
    · rw [Function.update_of_ne hqp] at hn
      exact ⟨hP ▸ ha,hn⟩

theorem attends_block {t : Thread} (ht : t.reads = none) : Attends s (waitChildExit s p t) :=
  attends_thread rfl rfl ht

theorem attends_cleanup (c : PcbRef) (status : Bool) :
    Attends s { s with procs := (cleanupZombie s.procs c status).1 } := by
  obtain ⟨hother,hfree⟩ := cleanupZombie_PT s.procs c status
  refine attends_same rfl fun q ha => ?_
  by_cases hq : q = c
  · rw [hq] at ha
    cases hfree.symm.trans ha
  · rwa [← hother q hq]

theorem attends_awaitChild (child : PcbRef) (status : Bool) :
    Attends s (awaitChild s p child status).1 := by
  unfold awaitChild
  split
  · exact attends_block rfl
  · exact attends_cleanup child status

theorem attends_refl (s : State) : Attends s s := attends_same rfl fun _ ha => ha

theorem attends_waitForSpecificChild (cpid : Int) (status : Bool) :
    Attends s (waitForSpecificChild s p cpid status).1 := by
  unfold waitForSpecificChild
  split
  · split
    · exact attends_refl s
    · split
      · exact attends_refl s
      · exact attends_awaitChild _ status
  · exact attends_refl s

theorem attends_awaitAny {status : Bool} {t : Thread} {r : State × Option WaitResult}
    (ht : t.reads = none) (h : awaitAny s p status t = some r) : Attends s r.1 := by
  unfold awaitAny at h
  split at h
  · cases h
    exact attends_block ht
  · split at h
    · cases h
    · split at h
      · cases h
        exact attends_cleanup _ status
      · cases h

theorem attends_waitForAnyChild {status : Bool} {t : Thread} {r : State × Option WaitResult}
    (ht : t.reads = none) (h : waitForAnyChild s p status t = some r) : Attends s r.1 := by
  unfold waitForAnyChild at h
  split at h
  · cases h
    exact attends_refl s
  · exact attends_awaitAny ht h

theorem attends_returnWait (p : PcbRef) (status : Bool) (r : State × Option WaitResult) :
    Attends r.1 (returnWait p status r) := by
  obtain ⟨s,o⟩ := r
  cases o <;> exact attends_same rfl fun _ ha => ha

theorem attends_exitLoop (v : Int) (fuel : Nat) {s : State} {r : State × Bool}
    (h : exitLoop p v fuel s = some r) : Attends s r.1 := by
  induction fuel generalizing s with
  | zero => cases h
  | succ fuel ih =>
    obtain ⟨⟨s1,o⟩,hw,h⟩ := Option.bind_eq_some_iff.mp h
    have h1 : Attends s s1 := attends_waitForAnyChild rfl hw
    cases o with
    | none =>
      cases h
      exact h1
    | some x =>
      obtain ⟨ret,stored⟩ := x
      have hrec : Attends s (s1.record (.wait p ret false stored)) :=
        h1.trans (attends_same rfl fun _ ha => ha)
      simp only at h
      split at h
      · exact hrec.trans (ih h)
      · cases h
        exact hrec

theorem reparent_pstate {init : Option PcbRef} (fuel : Nat) {P P' : Procs}
    (h : reparent init p fuel P = some P') (q : PcbRef) :
    (P'.PT q).pstate = (P.PT q).pstate := by
  induction fuel generalizing P with
  | zero => cases h
  | succ fuel ih =>
    unfold reparent at h
    split at h
    · cases h
      rfl
    · simp only at h
      split at h
      · rename_i pcb i _
        rw [ih h]
        by_cases hq : q = pcb
        · rw [hq, Procs.modPCB]
          simp only [Function.update_self]
        · rw [Procs.modPCB]
          simp only [Function.update_of_ne hq]
      · cases h

structure Wakes (s s' : State) : Prop where
  pstate : ∀ q, (s'.procs.PT q).pstate = (s.procs.PT q).pstate
  thread : s'.thread = s.thread
  exited : s'.exited = s.exited
  rings : (s'.stopped = s.stopped ∧ s'.childExit = s.childExit) ∨
    ∃ r, s'.stopped = (broadcastChildExit s r).stopped ∧
      s'.childExit = (broadcastChildExit s r).childExit

theorem adoptExited_wakes {init : Option PcbRef} (h : adoptExited s init p = some s') :
    Wakes s s' := by
  unfold adoptExited at h
  split at h
  · cases h
    exact ⟨fun _ => rfl,rfl,rfl,.inl ⟨rfl,rfl⟩⟩
  · obtain ⟨i,-,rfl⟩ := Option.map_eq_some_iff.mp h
    exact ⟨fun _ => rfl,rfl,rfl,.inr ⟨i,rfl,rfl⟩⟩

theorem tellParent_wakes (s : State) (p : PcbRef) : Wakes s (tellParent s p) := by
  unfold tellParent
  split
  · exact ⟨fun _ => rfl,rfl,rfl,.inl ⟨rfl,rfl⟩⟩
  · rename_i parent _
    exact ⟨fun _ => rfl,rfl,rfl,.inr ⟨parent,rfl,rfl⟩⟩

theorem exitTail_wakes {v : Int} (h : exitTail s p v = some s') : ∃ s1 s2,
    Wakes s s1 ∧ Wakes s1 s2 ∧ s'.thread = Function.update s2.thread p none ∧
    s'.exited = s2.exited+1 ∧ s'.stopped = s2.stopped ∧
    ∀ q, (s'.procs.PT q).pstate = if q = p then .ZOMBIE else (s2.procs.PT q).pstate := by
  obtain ⟨files,-,h⟩ := Option.bind_eq_some_iff.mp h
  obtain ⟨procs,hrep,h⟩ := Option.bind_eq_some_iff.mp h
  obtain ⟨s1,hadopt,rfl⟩ := Option.map_eq_some_iff.mp h
  obtain ⟨hpst,hth,hex,hrings⟩ := adoptExited_wakes hadopt
  have hargs : ∀ q, (procs.PT q).pstate = (s.procs.PT q).pstate := by
    intro q
    rw [reparent_pstate childFuel hrep q]
    by_cases hq : q = p
    · rw [hq, Procs.modPCB]
      simp only [Function.update_self]
    · rw [Procs.modPCB]
      simp only [Function.update_of_ne hq]
  refine ⟨s1,tellParent s1 p,⟨fun q => (hpst q).trans (hargs q),hth,hex,hrings⟩,
    tellParent_wakes s1 p,rfl,rfl,rfl,fun q => ?_⟩
  change ((markZombie (tellParent s1 p).procs p v).PT q).pstate = _
  by_cases hq : q = p
  · rw [hq, markZombie, Procs.modPCB]
    simp only [Function.update_self, if_true]
  · rw [markZombie, Procs.modPCB]
    simp only [Function.update_of_ne hq, if_neg hq]

theorem attends_exitTail {v : Int} (h : exitTail s p v = some s') : Attends s s' := by
  obtain ⟨s1,s2,h1,h2,hth,-,-,hpst⟩ := exitTail_wakes h
  have hthread : s2.thread = s.thread := h2.thread.trans h1.thread
  rw [hthread] at hth
  constructor
  · intro q f i n hq
    rw [hth] at hq
    by_cases hqp : q = p
    · rw [hqp, Function.update_self] at hq
      cases hq
    · rwa [Function.update_of_ne hqp] at hq
  · intro q ha hn
    rw [hpst] at ha
    by_cases hqp : q = p
    · rw [if_pos hqp] at ha
      cases ha
    · rw [if_neg hqp, h2.pstate, h1.pstate] at ha
      rw [hth, Function.update_of_ne hqp] at hn
      exact ⟨ha,hn⟩

theorem attends_leaveExitLoop {v : Int} {r : State × Bool} (h : leaveExitLoop p v r = some s') :
    Attends r.1 s' := by
  obtain ⟨s1,b⟩ := r
  cases b with
  | false =>
    cases h
    exact attends_refl s'
  | true => exact attends_exitTail h

theorem attends_exit {v : Int} (h : sysExit s p v = some s') : Attends s s' := by
  unfold sysExit at h
  split at h
  · obtain ⟨r,hloop,h⟩ := Option.bind_eq_some_iff.mp h
    exact (attends_exitLoop v childFuel hloop).trans (attends_leaveExitLoop h)
  · exact attends_exitTail h

theorem attends_resume {valid : Nat → Bool} {t : Thread} (ht : s.thread p = some t)
    (hc : t.childWait = true) (h : resume s p valid = some s') : Attends s s' := by
  rw [resume, ht, Option.bind_some] at h
  have hw : Attends s (s.setThread p (some .user)) := attends_thread rfl rfl rfl
  refine hw.trans ?_
  cases t with
  | user => cases hc
  | reading => cases hc
  | waitChild child status =>
    cases h
    exact (attends_awaitChild child status).trans (attends_returnWait p status _)
  | waitAny status =>
    obtain ⟨r,hr,rfl⟩ := Option.map_eq_some_iff.mp h
    exact (attends_awaitAny rfl hr).trans (attends_returnWait p status r)
  | exitWait v =>
    obtain ⟨⟨s1,o⟩,hr,h⟩ := Option.bind_eq_some_iff.mp h
    have h1 : Attends (s.setThread p (some .user)) s1 := attends_awaitAny rfl hr
    cases o with
    | none =>
      cases h
      exact h1
    | some x =>
      obtain ⟨ret,stored⟩ := x
      obtain ⟨r,hloop,h⟩ := Option.bind_eq_some_iff.mp h
      have hrec : Attends s1 (s1.record (.wait p ret false stored)) :=
        attends_same rfl fun _ ha => ha
      exact (h1.trans hrec).trans
        ((attends_exitLoop v childFuel hloop).trans (attends_leaveExitLoop h))

/-- Serial streams and the threads that sleep in serial_read have their port, and the
scheduler process has no stream. -/
structure Online (s : State) : Prop where
  attached : Attached s.serialPorts s.files
  reads : ∀ q f i n, s.thread q = some (.reading f i n) → i < s.serialPorts
  spare : ∀ i, s.files.FIDT 0 i = none

def Manned (s : State) : Prop := ∀ q, q≠0 → (s.procs.PT q).pstate = .ALIVE → s.thread q≠none

def Label.tasked : Label → Bool
  | .exec _ call _ _ => call
  | _ => true

theorem Attends.manned' (h : Attends s s') (hm : Manned s) : Manned s' := fun q hq ha hn =>
  hm q hq (h.manned q ha hn).1 (h.manned q ha hn).2

variable {L : Kin → List PcbRef} {fl : List PcbRef}

theorem Threads.ne_zero (h : Threads s) (hp : s.thread p≠none) : p≠0 := by
  intro he
  rw [he] at hp
  exact hp h.zero

theorem Online.attends (ho : Online s) (h : Attends s s') (hports : s'.serialPorts = s.serialPorts)
    (hstreams : SameStreams s.files s'.files) (hspare : s'.files.FIDT 0 = s.files.FIDT 0) :
    Online s' := by
  refine ⟨hports ▸ ho.attached.same hstreams,fun q f i n hq => ?_,fun i => ?_⟩
  · rw [hports]
    exact ho.reads q f i n (h.reads q f i n hq)
  · rw [hspare]
    exact ho.spare i

theorem closed_streams (hf : s'.files = s.files ∨
    ∃ files, closeFIDT s.files q = some files ∧ s'.files = files) :
    SameStreams s.files s'.files := by
  cases hf with
  | inl hf => exact hf ▸ .refl s.files
  | inr hf =>
    obtain ⟨files,hclose,hf⟩ := hf
    exact hf ▸ sameStreams_closeFids _ hclose

theorem sysExec_online (h : Inv s L fl) (ho : Online s) (hp : s.thread p = some .user) (call : Bool)
    (argl : Nat) (args : Option (List UInt8)) :
    Online (sysExec s p call argl args).1 ∧
      (call = true → Manned s → Manned (sysExec s p call argl args).1) := by
  cases fl with
  | nil =>
    have he : (sysExec s p call argl args).1 = s := by
      simp [sysExec, h.table.acquire_nil]
    rw [he]
    exact ⟨ho,fun _ hm => hm⟩
  | cons r fl =>
    have hfree : (s.procs.PT r).pstate = .FREE := (h.table.free r).mp (by simp)
    have hr : 1<r.val := by
      by_contra hle
      exact (h.forest.root r (by omega)).1 hfree
    have hle : ¬r.val≤1 := by omega
    have hr0 : (0 : PcbRef)≠r := by
      rintro rfl
      simp at hr
    have hpr : p≠r := by
      rintro rfl
      simp [h.alive p (by simp [hp])] at hfree
    obtain ⟨-,hown,-⟩ := h.files.inheritFIDT hpr (inflight_le _) (h.fids r (by simp [hfree]))
    obtain ⟨-,-,hFT⟩ := inheritFids_FT hpr (List.finRange MAX_FILEID) s.files
    obtain ⟨hother,-,-⟩ := exec_PT h.table hr p argl args rfl
    rw [sysExec_cons h.table]
    simp only [if_neg hle]
    set s1 : State := { s with
      procs := copyArgs (inheritParent (acquirePCB s.procs).1 p r) r argl args
      files := inheritFIDT s.files p r }.record (.exec (some p) r) with hs1
    have hstreams : SameStreams s.files (inheritFIDT s.files p r) := by
      intro f
      rw [show (inheritFIDT s.files p r).FT f = _ from hFT f]
      exact ⟨rfl,rfl⟩
    have ho1 : Online s1 := by
      refine ⟨ho.attached.same hstreams,ho.reads,fun i => ?_⟩
      change (inheritFIDT s.files p r).FIDT 0 i = none
      rw [hown 0 hr0]
      exact ho.spare i
    cases call with
    | false => exact ⟨ho1,by simp⟩
    | true =>
      have hst : Attends s1 (startMainThread s1 r) := attends_thread rfl rfl rfl
      refine ⟨ho1.attends hst rfl (.refl _) rfl,fun _ hm q hq ha => ?_⟩
      change Function.update s.thread r (some .user) q≠none
      by_cases hqr : q = r
      · rw [hqr, Function.update_self]
        exact Option.some_ne_none _
      · rw [Function.update_of_ne hqr]
        refine hm q hq ?_
        rw [← hother q hqr]
        exact ha

theorem devread_online {f : FcbRef} {o : Option Nat} {size inp : Nat} {valid : Nat → Bool}
    {ops : FileOps} {r : State × Option Int} (ho : Online s)
    (hport : ops = .serial → ∀ i, o = some i → i < s.serialPorts)
    (h : devread s p f o size inp valid ops = some r) :
    Online r.1 ∧ (Manned s → Manned r.1) := by
  have hfin : ∀ n, finishRead s f n = some r → Online r.1 ∧ (Manned s → Manned r.1) := by
    intro n hn
    obtain ⟨x,hx,rfl⟩ := Option.map_eq_some_iff.mp hn
    refine ⟨⟨ho.attached.same (sameStreams_decref hx),ho.reads,fun i => ?_⟩,fun hm => hm⟩
    change x.1.FIDT 0 i = none
    rw [decref_FIDT hx]
    exact ho.spare i
  cases ops with
  | nulldev => exact hfin _ h
  | stdio => exact hfin _ h
  | serial =>
    obtain ⟨port,rfl,hr⟩ := Option.bind_eq_some_iff.mp h
    split at hr
    · cases hr
      refine ⟨⟨ho.attached,fun q g i n hq => ?_,ho.spare⟩,fun hm q hq ha => ?_⟩
      · change Function.update s.thread p (some (.reading f port size)) q = _ at hq
        by_cases hqp : q = p
        · rw [hqp, Function.update_self] at hq
          cases hq
          exact hport rfl port rfl
        · rw [Function.update_of_ne hqp] at hq
          exact ho.reads q g i n hq
      · change Function.update s.thread p (some (.reading f port size)) q≠none
        by_cases hqp : q = p
        · rw [hqp, Function.update_self]
          exact Option.some_ne_none _
        · rw [Function.update_of_ne hqp]
          exact hm q hq ha
    · exact hfin _ hr

theorem sysRead_online {fd : Int} {size inp : Nat} {valid : Nat → Bool} {r : State × Option Int}
    (ho : Online s) (h : sysRead s p fd size inp valid = some r) :
    Online r.1 ∧ (Manned s → Manned r.1) := by
  unfold sysRead at h
  split at h
  · cases h
    exact ⟨ho,fun hm => hm⟩
  · rename_i f _
    obtain ⟨ops,hops,h⟩ := Option.bind_eq_some_iff.mp h
    have ho1 : Online { s with files := incref s.files f } :=
      ⟨ho.attached.same (sameStreams_incref s.files f),ho.reads,ho.spare⟩
    refine devread_online (s := { s with files := incref s.files f }) ho1 (fun hs i hi => ?_) h
    obtain ⟨j,hj,hobj⟩ := ho.attached f (hs ▸ hops)
    cases hobj.symm.trans hi
    exact hj

theorem Online.withFiles {F : Files} (ho : Online s) (hp0 : p≠0) (hF : Attached s.serialPorts F)
    (hown : ∀ q, q≠p → F.FIDT q = s.files.FIDT q) : Online { s with files := F } :=
  ⟨hF,ho.reads,fun i => (congrFun (hown 0 hp0.symm) i).trans (ho.spare i)⟩

theorem Online.wait (ho : Online s) (h : Attends s s') (hf : SameFiles s s') : Online s' :=
  ho.attends h hf.ports (hf.files ▸ .refl s.files) (by rw [hf.files])

theorem resume_online (h : Inv s L fl) (ho : Online s) {valid : Nat → Bool} (hp0 : p≠0)
    (hr : resume s p valid = some s') : Online s' ∧ (Manned s → Manned s') := by
  obtain ⟨t,ht,hfrom⟩ := Option.bind_eq_some_iff.mp hr
  have hback : SameFiles s (s.setThread p (some .user)) := ⟨rfl,rfl⟩
  cases t with
  | user => cases hfrom
  | waitChild child status =>
    have hatt := attends_resume ht rfl hr
    cases hfrom
    have hf := hback.trans (awaitChild_files (p := p) child status)
    exact ⟨ho.wait hatt (hf.trans (returnWait_files p status _)),hatt.manned'⟩
  | waitAny status =>
    have hatt := attends_resume ht rfl hr
    obtain ⟨r,hany,rfl⟩ := Option.map_eq_some_iff.mp hfrom
    have hf := hback.trans (awaitAny_files hany).1
    exact ⟨ho.wait hatt (hf.trans (returnWait_files p status r)),hatt.manned'⟩
  | exitWait v =>
    have hatt := attends_resume ht rfl hr
    obtain ⟨hports,hf⟩ := resume_exit_files hr ht
    exact ⟨ho.attends hatt hports (closed_streams hf) (closed_table h hp0.symm hf),hatt.manned'⟩
  | reading f port size =>
    obtain ⟨r,hread,rfl⟩ := Option.map_eq_some_iff.mp hfrom
    have hw : Attends s (s.setThread p (some .user)) := attends_thread rfl rfl rfl
    have ho1 : Online (s.setThread p (some .user)) := ho.attends hw rfl (.refl _) rfl
    have hport : FileOps.serial = .serial → ∀ i, some port = some i →
        i < (s.setThread p (some .user)).serialPorts := by
      intro _ i hi
      cases hi
      exact ho.reads p f port size ht
    obtain ⟨h1,h2⟩ := devread_online ho1 hport hread
    exact ⟨h1,fun hm => h2 (hw.manned' hm)⟩

theorem step_online (h : Inv s L fl) (ho : Online s) {a : Label} (ha : Enabled s a)
    (hs : step s a = some s') : Online s' ∧ (a.tasked = true → Manned s → Manned s') := by
  -- A file call of q: the ports, the other tables and the threads stay.
  have hcall : ∀ {q : PcbRef} {r : Option (Files × Int)}, s.withFiles r = some s' →
      s.thread q = some .user → (∀ x, r = some x → OwnStep s.files (inflight s.thread) q x.1) →
      (∀ x, r = some x → Attached s.serialPorts x.1) →
      Online s' ∧ (Manned s → Manned s') := by
    intro q r hr hq hown hatt
    obtain ⟨x,hx,rfl⟩ := Option.map_eq_some_iff.mp hr
    have hq0 := h.toThreads.ne_zero (p := q) (by simp [hq])
    exact ⟨ho.withFiles hq0 (hatt x hx) (hown x hx).own,fun hm => hm⟩
  cases a with
  | exec p call argl args =>
    cases hs
    exact sysExec_online h ho ha call argl args
  | exit p v =>
    have hp0 := h.toThreads.ne_zero (p := p) (by simp [show s.thread p = some .user from ha])
    obtain ⟨hports,-,hf⟩ := sysExit_files hs
    have hatt := attends_exit hs
    exact ⟨ho.attends hatt hports (closed_streams hf) (closed_table h hp0.symm hf),
      fun _ => hatt.manned'⟩
  | waitChild p cpid status =>
    obtain ⟨r,hr,rfl⟩ := Option.map_eq_some_iff.mp hs
    have h1 : Attends s r.1 ∧ SameFiles s r.1 := by
      unfold sysWaitChild at hr
      split at hr
      · cases hr
        exact ⟨attends_waitForSpecificChild cpid status,waitForSpecificChild_files cpid status⟩
      · exact ⟨attends_waitForAnyChild rfl hr,(waitForAnyChild_files hr).1⟩
    have hatt := h1.1.trans (attends_returnWait p status r)
    exact ⟨ho.wait hatt (h1.2.trans (returnWait_files p status r)),fun _ => hatt.manned'⟩
  | openNull p =>
    obtain ⟨r,hr,hown⟩ := h.files.openStream p s.serialPorts .DEV_NULL 0
    obtain ⟨h1,h2⟩ := hcall hs ha (fun x hx => by cases hr.symm.trans hx; exact hown)
      fun x hx => ho.attached.openStream hx
    exact ⟨h1,fun _ => h2⟩
  | openTerminal p termno =>
    obtain ⟨r,hr,hown⟩ := h.files.openStream p s.serialPorts .DEV_SERIAL termno
    obtain ⟨h1,h2⟩ := hcall hs ha (fun x hx => by cases hr.symm.trans hx; exact hown)
      fun x hx => ho.attached.openStream hx
    exact ⟨h1,fun _ => h2⟩
  | console p =>
    obtain ⟨F,hF,rfl⟩ := Option.map_eq_some_iff.mp hs
    have hp0 := h.toThreads.ne_zero (p := p) (by simp [show s.thread p = some .user from ha])
    exact ⟨ho.withFiles hp0 (ho.attached.pseudoConsole hF) (h.files.pseudoConsole hF).own,
      fun _ hm => hm⟩
  | close p fd =>
    obtain ⟨r,hr,hown⟩ := h.files.sysClose p fd
    obtain ⟨h1,h2⟩ := hcall hs ha (fun x hx => by cases hr.symm.trans hx; exact hown)
      fun x hx => ho.attached.same (sameStreams_close hx)
    exact ⟨h1,fun _ => h2⟩
  | dup2 p oldfd newfd =>
    obtain ⟨r,hr,hown⟩ := h.files.sysDup2 (inflight_le _) p oldfd newfd
    obtain ⟨h1,h2⟩ := hcall hs ha (fun x hx => by cases hr.symm.trans hx; exact hown)
      fun x hx => ho.attached.same (sameStreams_dup2 hx)
    exact ⟨h1,fun _ => h2⟩
  | read p fd size inp valid =>
    obtain ⟨r,hr,rfl⟩ := Option.map_eq_some_iff.mp hs
    obtain ⟨h1,h2⟩ := sysRead_online ho hr
    exact ⟨h1,fun _ => h2⟩
  | write p fd size fuel out accept =>
    obtain ⟨h1,h2⟩ := hcall hs ha
      (fun x hx => h.files.sysWrite (inflight_le _) p fd size fuel out accept hx)
      fun x hx => ho.attached.same (sameStreams_write hx)
    exact ⟨h1,fun _ => h2⟩
  | resume p valid =>
    obtain ⟨h1,h2⟩ := resume_online h ho (h.toThreads.ne_zero ha.1) hs
    exact ⟨h1,fun _ => h2⟩
  | serialRx =>
    cases hs
    exact ⟨⟨ho.attached,ho.reads,ho.spare⟩,fun _ hm => hm⟩
  | releaseTCB =>
    cases hs
    exact ⟨⟨ho.attached,ho.reads,ho.spare⟩,fun _ hm => hm⟩

theorem boot_online (ports argl : Nat) (args : Option (List UInt8)) :
    Online (boot ports argl args) ∧ Manned (boot ports argl args) := by
  obtain ⟨P,fl,hboot,-,hPT⟩ := boot_eq ports argl args
  obtain ⟨heap,hfiles⟩ := initializeFiles_eq
  rw [hboot, hfiles]
  refine ⟨⟨?_,?_,fun _ => rfl⟩,?_⟩
  · intro f hf
    cases hf
  · intro q f i n hq
    cases (booted_thread hq).2
  · intro q hq ha
    have hqi : q = initPid := by
      rcases hPT q with h | h
      · have h0 : q.val≠0 := fun hc => hq (Fin.ext hc)
        exact Fin.ext (by rw [initPid_val]; omega)
      · simp [booted, h.2] at ha
    rw [hqi]
    simp [booted]

theorem reachable_online (hr : system.Reachable s) : Online s := by
  induction hr with
  | init h =>
    obtain ⟨ports,argl,args,-,hs⟩ := h
    rw [hs]
    exact (boot_online ports argl args).1
  | step hr h ih =>
    obtain ⟨L,fl,hinv⟩ := reachable_inv hr
    simp only [system] at h
    split at h
    · exact (step_online hinv ih ‹_› h).1
    · cases h

end Threads
end TinyOS.Kernel
