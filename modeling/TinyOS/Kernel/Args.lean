import TinyOS.Kernel.Safety

/-! The arguments of a process stay as sys_Exec copied them until it exits. -/
namespace TinyOS.Kernel
open RList

def Label.proc : Label → Option PcbRef
  | .exec p _ _ _ | .exit p _ | .waitChild p _ _ | .openNull p | .openTerminal p _ | .console p
  | .close p _ | .dup2 p _ _ | .read p _ _ _ _ | .write p _ _ _ _ _ | .resume p _ => some p
  | .serialRx | .releaseTCB => none

structure KeepsArgs (q : PcbRef) (T T' : PcbRef → PCB) : Prop where
  alive : (T q).pstate = .ALIVE → (T' q).pstate = .ALIVE
  argl : (T q).pstate = .ALIVE → (T' q).argl = (T q).argl
  args : (T q).pstate = .ALIVE → (T' q).args = (T q).args

namespace KeepsArgs
variable {q p : PcbRef} {T T' T'' : PcbRef → PCB}

theorem refl (q : PcbRef) (T : PcbRef → PCB) : KeepsArgs q T T := ⟨id,fun _ => rfl,fun _ => rfl⟩

theorem trans (h : KeepsArgs q T T') (h' : KeepsArgs q T' T'') : KeepsArgs q T T'' :=
  ⟨fun ha => h'.alive (h.alive ha),fun ha => (h'.argl (h.alive ha)).trans (h.argl ha),
    fun ha => (h'.args (h.alive ha)).trans (h.args ha)⟩

theorem update {b : PCB} (h : p = q → (T q).pstate = .ALIVE → b.pstate = .ALIVE ∧
    b.argl = (T q).argl ∧ b.args = (T q).args) : KeepsArgs q T (Function.update T p b) := by
  by_cases hp : p = q
  · subst hp
    have hself : Function.update T p b p = b := Function.update_self ..
    exact ⟨fun ha => by rw [hself]; exact (h rfl ha).1,fun ha => by rw [hself]; exact (h rfl ha).2.1,
      fun ha => by rw [hself]; exact (h rfl ha).2.2⟩
  · have hne : Function.update T p b q = T q := Function.update_of_ne (Ne.symm hp) _ _
    exact ⟨by rw [hne]; exact id,fun _ => by rw [hne],fun _ => by rw [hne]⟩

end KeepsArgs

section Procs
variable {q : PcbRef} {P : Procs}

theorem cleanupZombie_args {child : PcbRef} (hc : (P.PT child).pstate≠.ALIVE) (status : Bool) :
    KeepsArgs q P.PT (cleanupZombie P child status).1.PT := by
  refine KeepsArgs.update ?_
  rintro rfl ha
  exact absurd ha hc

theorem reparent_args (o : Option PcbRef) (curproc : PcbRef) (fuel : Nat) {P P' : Procs}
    (h : reparent o curproc fuel P = some P') : KeepsArgs q P.PT P'.PT := by
  induction fuel generalizing P with
  | zero => cases h
  | succ fuel ih =>
    rw [reparent] at h
    split at h
    · cases h
      exact .refl q _
    · simp only at h
      split at h
      · refine KeepsArgs.trans (KeepsArgs.update ?_) (ih h)
        rintro rfl ha
        exact ⟨ha,rfl,rfl⟩
      · cases h

end Procs

section Calls
variable {q p : PcbRef} {s s' : State}

theorem awaitChild_args (child : PcbRef) (status : Bool) :
    KeepsArgs q s.procs.PT (awaitChild s p child status).1.procs.PT := by
  unfold awaitChild
  split
  · exact .refl q _
  · exact cleanupZombie_args ‹_› status

theorem waitForSpecificChild_args (cpid : Int) (status : Bool) :
    KeepsArgs q s.procs.PT (waitForSpecificChild s p cpid status).1.procs.PT := by
  unfold waitForSpecificChild
  split
  · split
    · exact .refl q _
    · split
      · exact .refl q _
      · exact awaitChild_args _ status
  · exact .refl q _

theorem awaitAny_args {status : Bool} {t : Thread} {r : State × Option WaitResult}
    (h : awaitAny s p status t = some r) : KeepsArgs q s.procs.PT r.1.procs.PT := by
  unfold awaitAny at h
  split at h
  · cases h
    exact .refl q _
  · split at h
    · cases h
    · split at h
      · rename_i hz
        cases h
        exact cleanupZombie_args (by rw [hz]; simp) status
      · cases h

theorem waitForAnyChild_args {status : Bool} {t : Thread} {r : State × Option WaitResult}
    (h : waitForAnyChild s p status t = some r) : KeepsArgs q s.procs.PT r.1.procs.PT := by
  unfold waitForAnyChild at h
  split at h
  · cases h
    exact .refl q _
  · exact awaitAny_args h

theorem returnWait_procs (p : PcbRef) (status : Bool) (r : State × Option WaitResult) :
    (returnWait p status r).procs = r.1.procs := by
  obtain ⟨s,o⟩ := r
  cases o <;> rfl

theorem exitLoop_args (v : Int) (fuel : Nat) {s : State} {r : State × Bool}
    (h : exitLoop p v fuel s = some r) : KeepsArgs q s.procs.PT r.1.procs.PT := by
  induction fuel generalizing s with
  | zero => cases h
  | succ fuel ih =>
    obtain ⟨⟨s1,o⟩,hw,h⟩ := Option.bind_eq_some_iff.mp h
    have h1 := waitForAnyChild_args (q := q) hw
    cases o with
    | none =>
      cases h
      exact h1
    | some x =>
      obtain ⟨ret,stored⟩ := x
      simp only at h
      split at h
      · exact KeepsArgs.trans h1 (ih (s := s1.record (.wait p ret false stored)) h)
      · cases h
        exact h1

theorem exitTail_args (hpq : p≠q) {v : Int} (h : exitTail s p v = some s') :
    KeepsArgs q s.procs.PT s'.procs.PT := by
  have hne : ∀ (T : PcbRef → PCB) b, KeepsArgs q T (Function.update T p b) := fun T b =>
    KeepsArgs.update fun he => absurd he hpq
  obtain ⟨files,-,h⟩ := Option.bind_eq_some_iff.mp h
  obtain ⟨procs,hrep,h⟩ := Option.bind_eq_some_iff.mp h
  obtain ⟨s1,hadopt,rfl⟩ := Option.map_eq_some_iff.mp h
  have hrest : KeepsArgs q procs.PT s1.procs.PT := by
    unfold adoptExited at hadopt
    split at hadopt
    · cases hadopt
      exact .refl q _
    · obtain ⟨init,-,rfl⟩ := Option.map_eq_some_iff.mp hadopt
      exact .refl q _
  have htell : KeepsArgs q s1.procs.PT (tellParent s1 p).procs.PT := by
    unfold tellParent
    split <;> exact .refl q _
  exact ((hne s.procs.PT _).trans (reparent_args _ p _ hrep)).trans
    (hrest.trans (htell.trans (hne _ _)))

theorem leaveExitLoop_args (hpq : p≠q) {v : Int} {s : State}
    (h : (exitLoop p v childFuel s).bind (leaveExitLoop p v) = some s') :
    KeepsArgs q s.procs.PT s'.procs.PT := by
  obtain ⟨⟨s1,b⟩,hloop,h⟩ := Option.bind_eq_some_iff.mp h
  have h1 := exitLoop_args (q := q) v childFuel hloop
  cases b with
  | false =>
    cases h
    exact h1
  | true => exact h1.trans (exitTail_args hpq h)

theorem sysExit_args (hpq : p≠q) {v : Int} (h : sysExit s p v = some s') :
    KeepsArgs q s.procs.PT s'.procs.PT := by
  unfold sysExit at h
  split at h
  · exact leaveExitLoop_args hpq h
  · exact exitTail_args hpq h

theorem devread_args {f : FcbRef} {o : Option Nat} {size inp : Nat} {valid : Nat → Bool}
    {ops : FileOps}
    {r : State × Option Int} {s : State} (h : devread s p f o size inp valid ops = some r) :
    KeepsArgs q s.procs.PT r.1.procs.PT := by
  have hfin : ∀ n, finishRead s f n = some r → KeepsArgs q s.procs.PT r.1.procs.PT := by
    intro n hn
    obtain ⟨x,-,rfl⟩ := Option.map_eq_some_iff.mp hn
    exact .refl q _
  cases ops with
  | nulldev => exact hfin _ h
  | stdio => exact hfin _ h
  | serial =>
    obtain ⟨port,-,h⟩ := Option.bind_eq_some_iff.mp h
    split at h
    · cases h
      exact .refl q _
    · exact hfin _ h

variable {L : Kin → List PcbRef} {fl : List PcbRef}

theorem sysExec_args (h : Inv s L fl) (call : Bool) (argl : Nat) (args : Option (List UInt8)) :
    KeepsArgs q s.procs.PT (sysExec s p call argl args).1.procs.PT := by
  cases fl with
  | nil =>
    simp only [sysExec, h.table.acquire_nil]
    exact .refl q _
  | cons r fl =>
    have hfree : (s.procs.PT r).pstate = .FREE := (h.table.free r).mp (by simp)
    have hrq : (s.procs.PT q).pstate = .ALIVE → q≠r := by
      rintro ha rfl
      rw [hfree] at ha
      cases ha
    have hsame : q≠r → (sysExec s p call argl args).1.procs.PT q = s.procs.PT q := by
      intro hne
      simp only [sysExec, h.table.acquire_cons]
      cases call <;> simp [startMainThread, State.setThread, State.record, copyArgs,
        inheritParent] <;>
        split <;> simp [Procs.modPCB, hne]
    exact ⟨fun ha => by rw [hsame (hrq ha), ha],fun ha => by rw [hsame (hrq ha)],
      fun ha => by rw [hsame (hrq ha)]⟩

theorem resume_args (hpq : p≠q) {valid : Nat → Bool} (h : resume s p valid = some s') :
    KeepsArgs q s.procs.PT s'.procs.PT := by
  obtain ⟨t,-,h⟩ := Option.bind_eq_some_iff.mp h
  cases t with
  | user => cases h
  | waitChild child status =>
    cases h
    rw [returnWait_procs]
    exact awaitChild_args (s := s.setThread p (some .user)) child status
  | waitAny status =>
    obtain ⟨r,hr,rfl⟩ := Option.map_eq_some_iff.mp h
    rw [returnWait_procs]
    exact awaitAny_args (s := s.setThread p (some .user)) hr
  | exitWait v =>
    obtain ⟨⟨s1,o⟩,hr,h⟩ := Option.bind_eq_some_iff.mp h
    have h1 := awaitAny_args (s := s.setThread p (some .user)) (q := q) hr
    cases o with
    | none =>
      cases h
      exact h1
    | some x =>
      obtain ⟨ret,stored⟩ := x
      exact KeepsArgs.trans h1
        (leaveExitLoop_args (s := s1.record (.wait p ret false stored)) hpq h)
  | reading f port size =>
    obtain ⟨r,hr,rfl⟩ := Option.map_eq_some_iff.mp h
    exact devread_args (s := s.setThread p (some .user)) hr

theorem step_args (h : Inv s L fl) {a : Label} (ha : a.proc≠some q) (hs : step s a = some s') :
    KeepsArgs q s.procs.PT s'.procs.PT := by
  have hfiles : ∀ r, s.withFiles r = some s' → s'.procs = s.procs := by
    intro r hr
    obtain ⟨x,-,rfl⟩ := Option.map_eq_some_iff.mp hr
    rfl
  cases a with
  | exec p call argl args =>
    cases hs
    exact sysExec_args h call argl args
  | exit p v => exact sysExit_args (fun he => ha (by rw [he]; rfl)) hs
  | waitChild p cpid status =>
    obtain ⟨r,hr,rfl⟩ := Option.map_eq_some_iff.mp hs
    rw [returnWait_procs]
    unfold sysWaitChild at hr
    split at hr
    · cases hr
      exact waitForSpecificChild_args cpid status
    · exact waitForAnyChild_args hr
  | openNull p => exact hfiles _ hs ▸ .refl q _
  | openTerminal p termno => exact hfiles _ hs ▸ .refl q _
  | console p =>
    obtain ⟨files,-,rfl⟩ := Option.map_eq_some_iff.mp hs
    exact .refl q _
  | close p fd => exact hfiles _ hs ▸ .refl q _
  | dup2 p oldfd newfd => exact hfiles _ hs ▸ .refl q _
  | read p fd size inp valid =>
    obtain ⟨r,hr,rfl⟩ := Option.map_eq_some_iff.mp hs
    unfold sysRead at hr
    split at hr
    · cases hr
      exact .refl q _
    · rename_i f _
      obtain ⟨ops,-,hr⟩ := Option.bind_eq_some_iff.mp hr
      exact devread_args (s := { s with files := incref s.files f }) hr
  | write p fd size fuel out accept => exact hfiles _ hs ▸ .refl q _
  | resume p valid => exact resume_args (fun he => ha (by rw [he]; rfl)) hs
  | serialRx =>
    cases hs
    exact .refl q _
  | releaseTCB =>
    cases hs
    exact .refl q _

end Calls
end TinyOS.Kernel
