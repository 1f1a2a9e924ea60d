import TinyOS.Kernel.Args

/-! The file table of a process is what its own calls make of the table it inherited, and
no other process can close a stream that the table names. -/
namespace TinyOS.Kernel
open RList Tally

abbrev FileTable := Fid → Option FcbRef

def lowestFree (T : FileTable) : Option Fid :=
  (List.finRange MAX_FILEID).find? fun i => decide (T i = none)

def fidOf (fd : Int) : Option Fid :=
  if h : 0≤fd ∧ fd<MAX_FILEID then some ⟨fd.toNat,fid_lt h⟩ else none

def replayOpen (T : FileTable) (new : Option FcbRef) (device : Bool) : FileTable × Int :=
  match lowestFree T, new, device with
  | some fid, some f, true => (Function.update T fid (some f),fid.val)
  | _, _, _ => (T,NOFILE)

/-- What a call makes of the table of its own process, and what it returns. -/
def replay (ports : Nat) (T : FileTable) (new : Option FcbRef) : Label → FileTable × Int
  | .openNull _ => replayOpen T new (deviceOpen ports .DEV_NULL 0).isSome
  | .openTerminal _ termno => replayOpen T new (deviceOpen ports .DEV_SERIAL termno).isSome
  | .close _ fd => match fidOf fd with
    | some fid => (Function.update T fid none,0)
    | none => (T,-1)
  | .dup2 _ oldfd newfd => match fidOf oldfd, fidOf newfd with
    | some old, some new => if (T old).isSome then (Function.update T new (T old),0) else (T,-1)
    | _, _ => (T,-1)
  | _ => (T,0)

def nextFCB (F : Files) : Option FcbRef := (acquireFCB F).bind Prod.snd

def Files.Fresh (F : Files) (f : FcbRef) : Prop := ∀ q fid, F.FIDT q fid≠some f

theorem findFids_one (T : FileTable) : findFids T 1 0 = (lowestFree T).toList := by
  rw [findFids_zero, List.take_one, emptyFids, List.head?_filter, lowestFree]

section Files
variable {F : Files} {n : FcbRef → Nat} {p : PcbRef} {fl : List FcbRef}

theorem decref_FIDT {f : FcbRef} {r : Files × Int} (h : decref F f = some r) :
    r.1.FIDT = F.FIDT := by
  simp only [decref] at h
  split at h
  · obtain ⟨ops,-,rfl⟩ := Option.map_eq_some_iff.mp h
    rfl
  · cases h
    rfl

theorem nextFCB_nil (hr : FreeRing F.heap []) : nextFCB F = none := by
  simp [nextFCB, acquireFCB, hr.isEmpty_eq]

theorem nextFCB_cons {f : FcbRef} (hr : FreeRing F.heap (f::fl)) : nextFCB F = some f := by
  simp [nextFCB, acquireFCB_cons hr]

theorem Counted.fresh {f : FcbRef} (hc : Counted F (refs F n) fl) (hf : nextFCB F = some f) :
    F.Fresh f := by
  cases fl with
  | nil => simp [nextFCB_nil hc.ring] at hf
  | cons g fl =>
    obtain rfl : g = f := by simpa [nextFCB_cons hc.ring] using hf
    intro q fid hslot
    have hpos := refs_pos (n := n) hslot
    rw [(hc.free g).mp (by simp)] at hpos
    omega

theorem openStream_table (hc : Counted F (refs F n) fl) (ports : Nat) (major : DeviceType)
    (minor : Nat)
    {r : Files × Int} (hr : openStream F p ports major minor = some r) :
    (r.1.FIDT p,r.2) = replayOpen (F.FIDT p) (nextFCB F) (deviceOpen ports major minor).isSome := by
  have hfids := findFids_one (F.FIDT p)
  by_cases hfail : (findFids (F.FIDT p) 1 0).length<1 ∨ fl.length<1
  · obtain ⟨F',fl',hres,-,-,hT,-⟩ := reserve_fail (p := p) hc.ring hfail
    simp only [openStream, hres, Option.bind_some, Option.some.injEq] at hr
    subst hr
    simp only [hT]
    unfold replayOpen
    split
    · rename_i fid f hlow hnew _
      cases hfail with
      | inl hlen => simp [hfids, hlow] at hlen
      | inr hlen =>
        obtain rfl : fl = [] := List.length_eq_zero_iff.mp (by omega)
        simp [nextFCB_nil hc.ring] at hnew
    · rfl
  · obtain ⟨hfid,hlen⟩ := not_or.mp hfail
    obtain ⟨F',hres,-,-,-,hi,hset,-⟩ := reserve_ok (p := p) hc.ring hfid (by omega)
    have hfree := (findFids_spec (F.FIDT p) 1 0).1
    obtain ⟨fid,hlow⟩ : ∃ fid, lowestFree (F.FIDT p) = some fid := by
      cases hlow : lowestFree (F.FIDT p) with
      | none => simp [hfids, hlow] at hfid
      | some fid => exact ⟨fid,rfl⟩
    obtain ⟨f,fl,rfl⟩ : ∃ f fl', fl = f::fl' := List.exists_cons_of_length_pos (by omega)
    rw [hlow] at hfids
    simp only [Option.toList_some, hfids, List.take_succ_cons, List.take_zero] at hres hi hset hfree
    have hslot : F'.FIDT p fid = some f := hset (fid,f) (by simp)
    have hT : F'.FIDT p = Function.update (F.FIDT p) fid (some f) := by
      funext i
      by_cases hif : i = fid
      · subst hif
        simp [hslot]
      · simpa [hif] using hi i (by simpa using hif)
    rw [nextFCB_cons hc.ring]
    cases hdev : deviceOpen ports major minor with
    | none =>
      simp only [openStream, hres, Option.bind_some, hdev, List.zip_cons_cons, List.zip_nil_right,
        unreserveFCB,
        hslot, if_true, Option.map_some, Option.some.injEq] at hr
      subst hr
      have hback : (releaseFCB (F'.setFid p fid none) f).FIDT p = F.FIDT p := by
        change Function.update F'.FIDT p (Function.update (F'.FIDT p) fid none) p = F.FIDT p
        rw [Function.update_self, hT, Function.update_idem, Function.update_eq_self_iff]
        exact ((hfree fid (by simp)).1).symm
      simp [replayOpen, hback]
    | some d =>
      obtain ⟨obj,ops⟩ := d
      simp only [openStream, hres, Option.bind_some, hdev, Option.some.injEq] at hr
      subst hr
      simp [replayOpen, hlow, setStream, Files.modFCB, hT]

theorem decref_ret {f : FcbRef} {r : Files × Int} (h : decref F f = some r) : r.2 = 0 := by
  simp only [decref] at h
  split at h
  · obtain ⟨ops,-,rfl⟩ := Option.map_eq_some_iff.mp h
    cases ops <;> rfl
  · cases h
    rfl

theorem getFcb_eq (F : Files) (p : PcbRef) (fd : Int) :
    getFcb F p fd = (fidOf fd).bind (F.FIDT p) := by
  unfold getFcb fidOf
  split <;> rfl

theorem setFcb_table (F : Files) (p : PcbRef) (fd : Int) (o : Option FcbRef) {fid : Fid}
    (h : fidOf fd = some fid) : (setFcb F p fd o).FIDT p = Function.update (F.FIDT p) fid o := by
  unfold fidOf at h
  split at h
  · rename_i hr
    cases h
    rw [setFcb, dif_pos hr]
    simp [Files.setFid]
  · cases h

theorem fidOf_eq_none {fd : Int} : fidOf fd = none ↔ ¬(0≤fd ∧ fd<MAX_FILEID) := by
  unfold fidOf
  split
  · exact iff_of_false (by simp) (not_not.mpr ‹_›)
  · exact iff_of_true rfl ‹_›

theorem fidOf_range {fd : Int} {fid : Fid} (h : fidOf fd = some fid) : 0≤fd ∧ fd<MAX_FILEID := by
  unfold fidOf at h
  split at h
  · assumption
  · cases h

theorem sysClose_table (ports : Nat) (new : Option FcbRef) {fd : Int} {r : Files × Int}
    (hr : sysClose F p fd = some r) :
    (r.1.FIDT p,r.2) = replay ports (F.FIDT p) new (.close p fd) := by
  unfold sysClose at hr
  simp only [replay]
  cases hfid : fidOf fd with
  | none =>
    have hout := fidOf_eq_none.mp hfid
    rw [getFcb_eq, hfid] at hr
    cases hr
    simp only [if_neg hout]
  | some fid =>
    rw [getFcb_eq, hfid, Option.bind_some] at hr
    cases hslot : F.FIDT p fid with
    | none =>
      rw [hslot] at hr
      cases hr
      have hsame : Function.update (F.FIDT p) fid none = F.FIDT p := by
        rw [← hslot, Function.update_eq_self]
      simp only [if_pos (fidOf_range hfid), hsame]
    | some f =>
      rw [hslot] at hr
      rw [decref_FIDT hr, decref_ret hr, setFcb_table F p fd none hfid]

theorem decrefOld_FIDT {o : Option FcbRef} {F' : Files} (h : decrefOld F o = some F') :
    F'.FIDT = F.FIDT := by
  cases o with
  | none =>
    cases h
    rfl
  | some f =>
    obtain ⟨r,hr,rfl⟩ := Option.map_eq_some_iff.mp h
    exact decref_FIDT hr

theorem sysDup2_table (ports : Nat) (new : Option FcbRef) {oldfd newfd : Int} {r : Files × Int}
    (hr : sysDup2 F p oldfd newfd = some r) :
    (r.1.FIDT p,r.2) = replay ports (F.FIDT p) new (.dup2 p oldfd newfd) := by
  have hrange : ∀ fd, fidOf fd = none → fd<0 ∨ fd≥MAX_FILEID := by
    intro fd hfd
    have := fidOf_eq_none.mp hfd
    omega
  unfold sysDup2 at hr
  simp only [replay]
  cases ho : fidOf oldfd with
  | none =>
    rw [if_pos (by have := hrange oldfd ho; tauto)] at hr
    cases hr
    rfl
  | some old =>
    cases hn : fidOf newfd with
    | none =>
      rw [if_pos (by have := hrange newfd hn; tauto)] at hr
      cases hr
      rfl
    | some fid =>
      have h1 := fidOf_range ho
      have h2 := fidOf_range hn
      rw [if_neg (by omega), getFcb_eq, getFcb_eq, ho, hn, Option.bind_some, Option.bind_some] at hr
      cases hold : F.FIDT p old with
      | none =>
        rw [hold] at hr
        cases hr
        simp [hold]
      | some f =>
        rw [hold] at hr
        simp only at hr
        split at hr
        · obtain ⟨F',hF',rfl⟩ := Option.map_eq_some_iff.mp hr
          rw [setFcb_table _ p newfd _ hn]
          simp [incref, Files.modFCB, decrefOld_FIDT hF', hold]
        · rename_i hsame
          cases hr
          have he : F.FIDT p fid = some f := (not_not.mp hsame).symm
          have hid : Function.update (F.FIDT p) fid (some f) = F.FIDT p := by
            rw [← he, Function.update_eq_self]
          simp [hold, hid]

end Files

/-- Process p has a main thread and has not called Exit. -/
def Running (s : State) (p : PcbRef) : Prop := ∃ t, s.thread p = some t ∧ ∀ v, t≠.exitWait v

structure SameFiles (s s' : State) : Prop where
  files : s'.files = s.files
  ports : s'.serialPorts = s.serialPorts

theorem SameFiles.trans {s s' s'' : State} (h : SameFiles s s') (h' : SameFiles s' s'') :
    SameFiles s s'' := ⟨h'.files.trans h.files,h'.ports.trans h.ports⟩

section Calls
variable {s s' : State} {p q : PcbRef}

theorem awaitChild_files (child : PcbRef) (status : Bool) :
    SameFiles s (awaitChild s p child status).1 := by
  unfold awaitChild
  split <;> exact ⟨rfl,rfl⟩

theorem waitForSpecificChild_files (cpid : Int) (status : Bool) :
    SameFiles s (waitForSpecificChild s p cpid status).1 := by
  unfold waitForSpecificChild
  split
  · split
    · exact ⟨rfl,rfl⟩
    · split
      · exact ⟨rfl,rfl⟩
      · exact awaitChild_files _ status
  · exact ⟨rfl,rfl⟩

theorem awaitAny_files {status : Bool} {t : Thread} {r : State × Option WaitResult}
    (h : awaitAny s p status t = some r) :
    SameFiles s r.1 ∧ (r.2 = none → r.1.thread p = some t) := by
  unfold awaitAny at h
  split at h
  · cases h
    exact ⟨⟨rfl,rfl⟩,fun _ => Function.update_self ..⟩
  · split at h
    · cases h
    · split at h
      · cases h
        exact ⟨⟨rfl,rfl⟩,by simp⟩
      · cases h

theorem waitForAnyChild_files {status : Bool} {t : Thread} {r : State × Option WaitResult}
    (h : waitForAnyChild s p status t = some r) :
    SameFiles s r.1 ∧ (r.2 = none → r.1.thread p = some t) := by
  unfold waitForAnyChild at h
  split at h
  · cases h
    exact ⟨⟨rfl,rfl⟩,by simp⟩
  · exact awaitAny_files h

theorem returnWait_files (p : PcbRef) (status : Bool) (r : State × Option WaitResult) :
    SameFiles r.1 (returnWait p status r) := by
  obtain ⟨s,o⟩ := r
  cases o <;> exact ⟨rfl,rfl⟩

theorem exitLoop_files (v : Int) (fuel : Nat) {s : State} {r : State × Bool}
    (h : exitLoop p v fuel s = some r) :
    SameFiles s r.1 ∧ (r.2 = false → r.1.thread p = some (.exitWait v)) := by
  induction fuel generalizing s with
  | zero => cases h
  | succ fuel ih =>
    obtain ⟨⟨s1,o⟩,hw,h⟩ := Option.bind_eq_some_iff.mp h
    obtain ⟨h1,ht⟩ := waitForAnyChild_files hw
    cases o with
    | none =>
      cases h
      exact ⟨h1,fun _ => ht rfl⟩
    | some x =>
      obtain ⟨ret,stored⟩ := x
      simp only at h
      split at h
      · obtain ⟨h2,ht2⟩ := ih (s := s1.record (.wait p ret false stored)) h
        exact ⟨SameFiles.trans h1 ⟨h2.files,h2.ports⟩,ht2⟩
      · cases h
        exact ⟨⟨h1.files,h1.ports⟩,by simp⟩

theorem exitTail_files {v : Int} (h : exitTail s p v = some s') :
    s'.serialPorts = s.serialPorts ∧ s'.thread p = none ∧
      ∃ files, closeFIDT s.files p = some files ∧ s'.files = files := by
  obtain ⟨files,hclose,h⟩ := Option.bind_eq_some_iff.mp h
  obtain ⟨procs,-,h⟩ := Option.bind_eq_some_iff.mp h
  obtain ⟨s1,hadopt,rfl⟩ := Option.map_eq_some_iff.mp h
  have h1 : s1.serialPorts = s.serialPorts ∧ s1.files = files := by
    unfold adoptExited at hadopt
    split at hadopt
    · cases hadopt
      exact ⟨rfl,rfl⟩
    · obtain ⟨init,-,rfl⟩ := Option.map_eq_some_iff.mp hadopt
      exact ⟨rfl,rfl⟩
  have h2 : SameFiles s1 (tellParent s1 p) := by
    unfold tellParent
    split <;> exact ⟨rfl,rfl⟩
  exact ⟨h2.ports.trans h1.1,Function.update_self ..,files,hclose,h2.files.trans h1.2⟩

theorem sysExit_files {v : Int} (h : sysExit s p v = some s') :
    s'.serialPorts = s.serialPorts ∧ ¬Running s' p ∧
      (s'.files = s.files ∨ ∃ files, closeFIDT s.files p = some files ∧ s'.files = files) := by
  have htail : ∀ {s0 : State}, SameFiles s s0 → exitTail s0 p v = some s' →
      s'.serialPorts = s.serialPorts ∧ ¬Running s' p ∧
      (s'.files = s.files ∨ ∃ files, closeFIDT s.files p = some files ∧ s'.files = files) := by
    intro s0 h0 ht
    obtain ⟨hports,hth,files,hclose,hf⟩ := exitTail_files ht
    refine ⟨hports.trans h0.ports,?_,Or.inr ⟨files,h0.files ▸ hclose,hf⟩⟩
    rintro ⟨t,ht',-⟩
    rw [hth] at ht'
    cases ht'
  unfold sysExit at h
  split at h
  · obtain ⟨⟨s1,b⟩,hloop,h⟩ := Option.bind_eq_some_iff.mp h
    obtain ⟨h1,ht1⟩ := exitLoop_files v childFuel hloop
    cases b with
    | false =>
      cases h
      refine ⟨h1.ports,?_,Or.inl h1.files⟩
      rintro ⟨t,ht,hv⟩
      rw [ht1 rfl] at ht
      cases ht
      exact hv v rfl
    | true => exact htail h1 h
  · exact htail ⟨rfl,rfl⟩ h

theorem devread_files {f : FcbRef} {o : Option Nat} {size inp : Nat} {valid : Nat → Bool}
    {ops : FileOps}
    {r : State × Option Int} {s : State} (h : devread s p f o size inp valid ops = some r) :
    r.1.files.FIDT = s.files.FIDT ∧ r.1.serialPorts = s.serialPorts := by
  have hfin : ∀ n, finishRead s f n = some r →
      r.1.files.FIDT = s.files.FIDT ∧ r.1.serialPorts = s.serialPorts := by
    intro n hn
    obtain ⟨x,hx,rfl⟩ := Option.map_eq_some_iff.mp hn
    exact ⟨decref_FIDT hx,rfl⟩
  cases ops with
  | nulldev => exact hfin _ h
  | stdio => exact hfin _ h
  | serial =>
    obtain ⟨port,-,h⟩ := Option.bind_eq_some_iff.mp h
    split at h
    · cases h
      exact ⟨rfl,rfl⟩
    · exact hfin _ h

theorem sysRead_files {fd : Int} {size inp : Nat} {valid : Nat → Bool} {r : State × Option Int}
    (h : sysRead s p fd size inp valid = some r) :
    r.1.files.FIDT = s.files.FIDT ∧ r.1.serialPorts = s.serialPorts := by
  unfold sysRead at h
  split at h
  · cases h
    exact ⟨rfl,rfl⟩
  · rename_i f _
    obtain ⟨ops,-,h⟩ := Option.bind_eq_some_iff.mp h
    exact devread_files (s := { s with files := incref s.files f }) h

theorem sysWrite_FIDT {F : Files} {fd : Int} {size fuel out : Nat} {accept : Nat → Bool}
    {r : Files × Int}
    (h : sysWrite F p fd size fuel out accept = some r) : r.1.FIDT = F.FIDT := by
  unfold sysWrite at h
  split at h
  · cases h
    rfl
  · obtain ⟨ops,-,h⟩ := Option.bind_eq_some_iff.mp h
    obtain ⟨count,-,h⟩ := Option.bind_eq_some_iff.mp h
    obtain ⟨x,hx,rfl⟩ := Option.map_eq_some_iff.mp h
    exact (decref_FIDT hx).trans rfl

variable {L : Kin → List PcbRef} {fl : List PcbRef}

theorem sysExec_table (h : Inv s L fl) (hq : s.thread q = some .user) (hp : s.thread p≠none)
    (call : Bool)
    (argl : Nat) (args : Option (List UInt8)) :
    (sysExec s q call argl args).1.serialPorts = s.serialPorts ∧
      (sysExec s q call argl args).1.files.FIDT p = s.files.FIDT p := by
  cases fl with
  | nil => simp [sysExec, h.table.acquire_nil]
  | cons r fl =>
    have hfree : (s.procs.PT r).pstate = .FREE := (h.table.free r).mp (by simp)
    have hne : ∀ x, s.thread x≠none → x≠r := by
      rintro x hx rfl
      simp [h.alive x hx] at hfree
    obtain ⟨-,hown,-⟩ := h.files.inheritFIDT (hne q (by simp [hq])) (inflight_le _)
      (h.fids r (by simp [hfree]))
    have hports : (sysExec s q call argl args).1.serialPorts = s.serialPorts := by
      simp only [sysExec, h.table.acquire_cons]
      cases call <;> rfl
    have hfiles : (sysExec s q call argl args).1.files =
        if r.val≤1 then s.files else inheritFIDT s.files q r := by
      simp only [sysExec, h.table.acquire_cons]
      cases call <;> rfl
    refine ⟨hports,?_⟩
    rw [hfiles]
    split
    · rfl
    · exact hown p (hne p hp)

theorem resume_files {valid : Nat → Bool} (h : resume s q valid = some s')
    (hq : ∀ v, s.thread q≠some (.exitWait v)) :
    s'.files.FIDT = s.files.FIDT ∧ s'.serialPorts = s.serialPorts := by
  obtain ⟨t,ht,h⟩ := Option.bind_eq_some_iff.mp h
  have hsame : ∀ {s0 : State}, SameFiles (s.setThread q (some .user)) s0 →
      s0.files.FIDT = s.files.FIDT ∧ s0.serialPorts = s.serialPorts := fun h0 =>
    ⟨by rw [h0.files]; rfl,h0.ports⟩
  cases t with
  | user => cases h
  | waitChild child status =>
    cases h
    exact hsame ((awaitChild_files child status).trans (returnWait_files q status _))
  | waitAny status =>
    obtain ⟨r,hr,rfl⟩ := Option.map_eq_some_iff.mp h
    exact hsame ((awaitAny_files hr).1.trans (returnWait_files q status _))
  | exitWait v => exact absurd ht (hq v)
  | reading f port size =>
    obtain ⟨r,hr,rfl⟩ := Option.map_eq_some_iff.mp h
    exact devread_files (s := s.setThread q (some .user)) hr

theorem resume_exit_files {valid : Nat → Bool} {v : Int} (h : resume s q valid = some s')
    (hq : s.thread q = some (.exitWait v)) : s'.serialPorts = s.serialPorts ∧
      (s'.files = s.files ∨ ∃ files, closeFIDT s.files q = some files ∧ s'.files = files) := by
  rw [resume, hq, Option.bind_some] at h
  obtain ⟨⟨s1,o⟩,hr,h⟩ := Option.bind_eq_some_iff.mp h
  obtain ⟨h1,-⟩ := awaitAny_files hr
  have hf1 : s1.files = s.files ∧ s1.serialPorts = s.serialPorts := ⟨h1.files,h1.ports⟩
  cases o with
  | none =>
    cases h
    exact ⟨hf1.2,Or.inl hf1.1⟩
  | some x =>
    obtain ⟨ret,stored⟩ := x
    obtain ⟨⟨s2,b⟩,hloop,h⟩ := Option.bind_eq_some_iff.mp h
    obtain ⟨h2,-⟩ := exitLoop_files v childFuel (s := s1.record (.wait q ret false stored)) hloop
    have hf2 : s2.files = s.files ∧ s2.serialPorts = s.serialPorts :=
      ⟨h2.files.trans hf1.1,h2.ports.trans hf1.2⟩
    cases b with
    | false =>
      cases h
      exact ⟨hf2.2,Or.inl hf2.1⟩
    | true =>
      obtain ⟨hports,-,files,hclose,hf⟩ := exitTail_files h
      exact ⟨hports.trans hf2.2,Or.inr ⟨files,hf2.1 ▸ hclose,hf⟩⟩

theorem closed_table (h : Inv s L fl) (hpq : p≠q)
    (hf : s'.files = s.files ∨ ∃ files, closeFIDT s.files q = some files ∧ s'.files = files) :
    s'.files.FIDT p = s.files.FIDT p := by
  rcases hf with hf | ⟨files,hclose,hf⟩
  · rw [hf]
  · obtain ⟨F',hF',-,hown,-⟩ := h.files.closeFIDT q
    rw [hclose] at hF'
    cases hF'
    rw [hf, hown p hpq]

/-- One step: a call of p does to its table what replay says, any other step nothing. -/
theorem step_table (h : Inv s L fl) {a : Label} (ha : Enabled s a) (hs : step s a = some s')
    (hp : Running s p) (hp' : Running s' p) (hcon : a≠.console p) :
    s'.serialPorts = s.serialPorts ∧ s'.files.FIDT p = if a.proc = some p then
      (replay s.serialPorts (s.files.FIDT p) (nextFCB s.files) a).1 else s.files.FIDT p := by
  obtain ⟨fl',hc⟩ := h.files
  obtain ⟨t,ht,htv⟩ := hp
  -- A call on the table of q that replay describes.
  have hown : ∀ (q : PcbRef) (b : Label) (r : Option (Files × Int)), s.withFiles r = some s' →
      b.proc = some q → (∀ x, r = some x → OwnStep s.files (inflight s.thread) q x.1) →
      (∀ x, r = some x → (x.1.FIDT q,x.2) = replay s.serialPorts (s.files.FIDT q) (nextFCB s.files)
        b) →
      s'.serialPorts = s.serialPorts ∧ s'.files.FIDT p = if b.proc = some p then
        (replay s.serialPorts (s.files.FIDT p) (nextFCB s.files) b).1 else s.files.FIDT p := by
    intro q b r hr hb hstep hrep
    obtain ⟨x,hx,rfl⟩ := Option.map_eq_some_iff.mp hr
    refine ⟨rfl,?_⟩
    by_cases hqp : q = p
    · subst hqp
      rw [if_pos hb, ← hrep x hx]
    · rw [if_neg (by rw [hb]; simpa using hqp)]
      exact (hstep x hx).own p (Ne.symm hqp)
  have hsame : ∀ b : Label, s'.serialPorts = s.serialPorts → s'.files.FIDT p = s.files.FIDT p →
      (replay s.serialPorts (s.files.FIDT p) (nextFCB s.files) b).1 = s.files.FIDT p →
      s'.serialPorts = s.serialPorts ∧ s'.files.FIDT p = if b.proc = some p then
        (replay s.serialPorts (s.files.FIDT p) (nextFCB s.files) b).1 else s.files.FIDT p := by
    intro b h1 h2 h3
    rw [h3, ite_self]
    exact ⟨h1,h2⟩
  cases a with
  | exec q call argl args =>
    cases hs
    obtain ⟨h1,h2⟩ := sysExec_table h ha (p := p) (by simp [ht]) call argl args
    exact hsame _ h1 h2 rfl
  | exit q v =>
    obtain ⟨h1,hnot,hf⟩ := sysExit_files hs
    have hpq : p≠q := by
      rintro rfl
      exact hnot hp'
    exact hsame _ h1 (closed_table h hpq hf) rfl
  | waitChild q cpid status =>
    obtain ⟨r,hr,rfl⟩ := Option.map_eq_some_iff.mp hs
    have h1 : SameFiles s r.1 := by
      unfold sysWaitChild at hr
      split at hr
      · cases hr
        exact waitForSpecificChild_files cpid status
      · exact (waitForAnyChild_files hr).1
    have h2 := h1.trans (returnWait_files q status r)
    exact hsame _ h2.ports (by rw [h2.files]) rfl
  | openNull q =>
    refine hown q _ _ hs rfl (fun x hx => ?_) fun x hx => openStream_table hc _ _ _ hx
    obtain ⟨r,hr,hstep⟩ := h.files.openStream q s.serialPorts .DEV_NULL 0
    cases hx.symm.trans hr
    exact hstep
  | openTerminal q termno =>
    refine hown q _ _ hs rfl (fun x hx => ?_) fun x hx => openStream_table hc _ _ _ hx
    obtain ⟨r,hr,hstep⟩ := h.files.openStream q s.serialPorts .DEV_SERIAL termno
    cases hx.symm.trans hr
    exact hstep
  | console q =>
    obtain ⟨files,hfiles,rfl⟩ := Option.map_eq_some_iff.mp hs
    have hpq : p≠q := by
      rintro rfl
      exact hcon rfl
    exact hsame _ rfl ((h.files.pseudoConsole hfiles).own p hpq) rfl
  | close q fd =>
    refine hown q _ _ hs rfl (fun x hx => ?_) fun x hx => sysClose_table _ _ hx
    obtain ⟨r,hr,hstep⟩ := h.files.sysClose q fd
    cases hx.symm.trans hr
    exact hstep
  | dup2 q oldfd newfd =>
    refine hown q _ _ hs rfl (fun x hx => ?_) fun x hx => sysDup2_table _ _ hx
    obtain ⟨r,hr,hstep⟩ := h.files.sysDup2 (inflight_le _) q oldfd newfd
    cases hx.symm.trans hr
    exact hstep
  | read q fd size inp valid =>
    obtain ⟨r,hr,rfl⟩ := Option.map_eq_some_iff.mp hs
    obtain ⟨h1,h2⟩ := sysRead_files hr
    exact hsame _ h2 (by rw [h1]) rfl
  | write q fd size fuel out accept =>
    obtain ⟨r,hr,rfl⟩ := Option.map_eq_some_iff.mp hs
    exact hsame _ rfl (congrFun (sysWrite_FIDT hr) p) rfl
  | resume q valid =>
    by_cases hv : ∃ v, s.thread q = some (.exitWait v)
    · obtain ⟨v,hv⟩ := hv
      obtain ⟨h1,hf⟩ := resume_exit_files hs hv
      have hpq : p≠q := by
        rintro rfl
        rw [ht] at hv
        cases hv
        exact htv v rfl
      exact hsame _ h1 (closed_table h hpq hf) rfl
    · obtain ⟨h1,h2⟩ := resume_files hs (not_exists.mp hv)
      exact hsame _ h2 (by rw [h1]) rfl
  | serialRx =>
    cases hs
    exact hsame _ rfl rfl rfl
  | releaseTCB =>
    cases hs
    exact hsame _ rfl rfl rfl

end Calls

/-- The calls of p in a run, each with the FCB that an open gets there. -/
def ownCalls (p : PcbRef) : State → List Label → List (Label × Option FcbRef)
  | _, [] => []
  | s, a::as => match system.next s a with
    | none => []
    | some s' => if a.proc = some p then (a,nextFCB s.files)::ownCalls p s' as else ownCalls p s' as

def fileCall (s : State) : Label → Option (Files × Int)
  | .openNull p => openStream s.files p s.serialPorts .DEV_NULL 0
  | .openTerminal p termno => openStream s.files p s.serialPorts .DEV_SERIAL termno
  | .close p fd => sysClose s.files p fd
  | .dup2 p oldfd newfd => sysDup2 s.files p oldfd newfd
  | _ => none

/-- Process p is new in s and has inherited T: from the process that called Exec, or, as
init, nothing. -/
def Inherits (s : State) (p : PcbRef) (T : FileTable) : Prop :=
  (∃ s0 c call argl args, system.Reachable s0 ∧ s0.thread c = some .user ∧
    sysExec s0 c call argl args = (s,(p.val : Int)) ∧ T = s0.files.FIDT c) ∨
  (p = initPid ∧ T = (fun _ => none) ∧ ∃ ports argl args, ports≤MAX_TERMINALS ∧ s = boot ports argl
    args)

/-- A step that leaves the table of p alone, and open and in use what it names. -/
structure Undisturbed (p : PcbRef) (s s' : State) : Prop where
  table : s'.files.FIDT p = s.files.FIDT p
  notClosed : ∀ fid f, s.files.FIDT p fid = some f →
    s'.files.log.count (.closed f) = s.files.log.count (.closed f)
  counted : ∀ fid f, s.files.FIDT p fid = some f → (s'.files.FT f).refcount≠0
  notFree : ∀ fid f, s.files.FIDT p fid = some f →
    s'.files.heap.next (.freelistNode f) = .freelistNode f

section
variable {s s' : State} {p : PcbRef} {L : Kin → List PcbRef} {fl : List PcbRef}

theorem Kept.undisturbed (hk : Kept s s') (hT : s'.files.FIDT p = s.files.FIDT p) :
    Undisturbed p s s' := by
  obtain ⟨-,⟨fl,hc⟩,es,hlog,hem⟩ := hk
  have hpos : ∀ fid f, s.files.FIDT p fid = some f → 0<refs s'.files (inflight s'.thread) f := by
    intro fid f hf
    rw [← hT] at hf
    exact refs_pos hf
  refine ⟨hT,fun fid f hf => ?_,fun fid f hf h0 => ?_,fun fid f hf => ?_⟩
  · have := hpos fid f hf
    rw [hlog, List.count_append, (hem f).1, if_neg (by omega), Nat.add_zero]
  · have h1 := hc.count f (hpos fid f hf)
    have := hpos fid f hf
    rw [h0] at h1
    simp at h1
    omega
  · have hnot : f∉fl := by
      intro hm
      have := hpos fid f hf
      rw [(hc.free f).mp hm] at this
      omega
    refine hc.ring.ring.lists.single _ (by simp) fun _ => ?_
    simpa [freelistNode_injective.eq_iff] using hnot

theorem booted_files (ports : Nat) (P : Procs) (F : Files) : (booted ports P F).files = F := rfl

theorem Inherits.table {T : FileTable} (h : Inherits s p T) :
    system.Reachable s ∧ s.files.FIDT p = T := by
  rcases h with ⟨s0,c,call,argl,args,hr,hc,hex,rfl⟩ | ⟨rfl,rfl,ports,argl,args,hports,hs⟩
  · obtain ⟨L,fl,hinv⟩ := reachable_inv hr
    have hs : s = (sysExec s0 c call argl args).1 := by rw [hex]
    refine ⟨.step (a := .exec c call argl args) hr ?_,?_⟩
    · simp only [system, if_pos (show Enabled s0 (.exec c call argl args) from hc), step, hs]
    · cases fl with
      | nil =>
        simp only [sysExec, hinv.table.acquire_nil, Prod.mk.injEq, getPid, NOPROC] at hex
        omega
      | cons r fl =>
        have hfree : (s0.procs.PT r).pstate = .FREE := (hinv.table.free r).mp (by simp)
        have hr1 : ¬r.val≤1 := fun hle => (hinv.forest.root r hle).1 hfree
        have hcr : c≠r := by
          rintro rfl
          simp [hinv.alive c (by simp [hc])] at hfree
        have hfiles : s.files = inheritFIDT s0.files c r ∧ (r.val : Int) = p.val := by
          simp only [sysExec, hinv.table.acquire_cons, Prod.mk.injEq, getPid, if_neg hr1] at hex
          obtain ⟨rfl,hp⟩ := hex
          cases call <;> exact ⟨rfl,hp⟩
        obtain rfl : r = p := Fin.ext (by have := hfiles.2; omega)
        obtain ⟨-,-,hnew⟩ := hinv.files.inheritFIDT hcr (inflight_le _)
          (hinv.fids r (by simp [hfree]))
        rw [hfiles.1]
        exact funext hnew
  · refine ⟨.init ⟨ports,argl,args,hports,hs⟩,?_⟩
    obtain ⟨P,fl,hboot,-⟩ := boot_eq ports argl args
    rw [hs, hboot, booted_files]
    funext i
    exact initializeFiles_FIDT initPid i

theorem run_table (hr : system.Reachable s) (as : List Label) (hrun : system.run s as = some s')
    (hlive : system.Along (Running · p) s as) (hcon : ∀ a∈as, a≠.console p) :
    s'.files.FIDT p = (ownCalls p s as).foldl (fun T c => (replay s.serialPorts T c.2 c.1).1)
      (s.files.FIDT p) := by
  induction as generalizing s with
  | nil =>
    cases hrun
    rfl
  | cons a as ih =>
    obtain ⟨s1,h1,hrun⟩ := Option.bind_eq_some_iff.mp hrun
    obtain ⟨L,fl,hinv⟩ := reachable_inv hr
    have hlive1 := hlive.2 s1 h1
    have hstep := h1
    simp only [system] at hstep
    split at hstep
    · obtain ⟨hports,hT⟩ := step_table hinv ‹_› hstep hlive.1 hlive1.head (hcon a (by simp))
      have hrest := ih (.step hr h1) hrun hlive1 fun b hb => hcon b (by simp [hb])
      rw [hrest, hports, hT, ownCalls, h1]
      by_cases ha : a.proc = some p
      · simp only [if_pos ha, List.foldl_cons]
      · simp only [if_neg ha]
    · cases hstep

theorem fileCall_table (hinv : Inv s L fl) {a : Label} (ha : a.proc = some p) {r : Files × Int}
    (hr : fileCall s a = some r) :
    (r.1.FIDT p,r.2) = replay s.serialPorts (s.files.FIDT p) (nextFCB s.files) a := by
  obtain ⟨fl',hc⟩ := hinv.files
  cases a with
  | openNull q =>
    obtain rfl : q = p := Option.some.inj ha
    exact openStream_table hc _ _ _ hr
  | openTerminal q termno =>
    obtain rfl : q = p := Option.some.inj ha
    exact openStream_table hc _ _ _ hr
  | close q fd =>
    obtain rfl : q = p := Option.some.inj ha
    exact sysClose_table _ _ hr
  | dup2 q oldfd newfd =>
    obtain rfl : q = p := Option.some.inj ha
    exact sysDup2_table _ _ hr
  | _ => cases hr

theorem replay_error {ports : Nat} {T : FileTable} {new : Option FcbRef} {a : Label}
    (h : (replay ports T new a).2<0) : (replay ports T new a).1 = T := by
  have hopen : ∀ d, (replayOpen T new d).2<0 → (replayOpen T new d).1 = T := by
    intro d
    unfold replayOpen
    split
    · intro hd
      exact absurd hd (by simp)
    · exact fun _ => rfl
  cases a with
  | openNull q => exact hopen _ h
  | openTerminal q termno => exact hopen _ h
  | close q fd =>
    revert h
    simp only [replay]
    split
    · exact fun h => absurd h (by simp)
    · exact fun _ => rfl
  | dup2 q oldfd newfd =>
    revert h
    simp only [replay]
    split
    · split
      · exact fun h => absurd h (by simp)
      · exact fun _ => rfl
    · exact fun _ => rfl
  | _ => rfl

end

/-- What holds of each step of a run for process p: a step of another process leaves it
undisturbed; a call of its own does and returns what replay says, and nothing to the
table on an error; and an FCB that an open gets is in no table. -/
structure Isolated (p : PcbRef) (s : State) (a : Label) (s' : State) : Prop where
  other : a.proc≠some p → Undisturbed p s s'
  own : a.proc = some p → ∀ r, fileCall s a = some r →
    (r.1.FIDT p,r.2) = replay s.serialPorts (s.files.FIDT p) (nextFCB s.files) a ∧
      (r.2<0 → r.1.FIDT p = s.files.FIDT p)
  fresh : ∀ f, nextFCB s.files = some f → s.files.Fresh f
  available : isRlistEmpty s.files.heap .FCB_freelist = false → (nextFCB s.files).isSome = true

/-- From the table it inherited, the table of a process is the replay of its own calls,
whatever the other processes do in between, until it exits. -/
theorem file_tables_isolated {s s' : State} {p : PcbRef} {T : FileTable} (hb : Inherits s p T)
    (as : List Label) (hrun : system.run s as = some s') (hlive : system.Along (Running · p) s as)
    (hcon : ∀ a∈as, a≠.console p) :
    s'.files.FIDT p = (ownCalls p s as).foldl (fun T c => (replay s.serialPorts T c.2 c.1).1) T ∧
    ∀ pre a post s1 s2, as = pre++a::post → system.run s pre = some s1 → system.next s1 a = some s2 →
      Isolated p s1 a s2 := by
  obtain ⟨hr,rfl⟩ := hb.table
  refine ⟨run_table hr as hrun hlive hcon,fun pre a post s1 s2 has hpre hs => ?_⟩
  subst has
  obtain ⟨hp1,hp2⟩ := hlive.split pre post hpre
  have hr1 := system.reachable_run pre hr hpre
  obtain ⟨L,fl,hinv⟩ := reachable_inv hr1
  obtain ⟨fl',hc⟩ := hinv.files
  have hstep := hs
  simp only [system] at hstep
  split at hstep
  · refine ⟨fun ha => ?_,fun ha r hcall => ?_,fun f hf => hc.fresh hf,fun hne => ?_⟩
    · obtain ⟨-,hT⟩ := step_table hinv ‹_› hstep hp1 (hp2 s2 hs) (hcon a (by simp))
      rw [if_neg ha] at hT
      exact (step_kept hinv ‹_› hstep).undisturbed hT
    · have hrep := fileCall_table hinv ha hcall
      refine ⟨hrep,fun hneg => ?_⟩
      have hret : r.2 = (replay s1.serialPorts (s1.files.FIDT p) (nextFCB s1.files) a).2 := by
        rw [← hrep]
      rw [hret] at hneg
      rw [← replay_error hneg, ← hrep]
    · rw [hc.ring.isEmpty_eq] at hne
      cases fl' with
      | nil => simp at hne
      | cons f fl' => simp [nextFCB_cons hc.ring]
  · cases hstep

/-- init opens a stream, its child inherits it and closes its own. -/
theorem boot_isolated : ∃ s s' r f, r≠initPid ∧ s.files.FIDT r 0 = some f ∧
    s'.files.FIDT r 0 = none ∧ s'.files.FIDT initPid 0 = some f ∧
    system.next s (.close r 0) = some s' ∧ Isolated initPid s (.close r 0) s' ∧
    s'.files.FIDT initPid = (ownCalls initPid (boot 0 0 none)
      [.openNull initPid,.exec initPid true 0 none,.close r 0]).foldl
        (fun T c => (replay (boot 0 0 none).serialPorts T c.2 c.1).1) fun _ => none := by
  obtain ⟨s1,s,r,f,hopen,hexec,hp1,hp,hpr,hri,hinit,hr⟩ := boot_shares
  obtain ⟨L,fl,h⟩ := reachable_inv ((boot_reachable.step hopen).step hexec)
  obtain ⟨x,hx,hstep⟩ := h.files.sysClose r 0
  have hclose : system.next s (.close r 0) = some { s with files := x.1 } := by
    rw [system_next (a := .close r 0) hpr, step, State.withFiles, hx, Option.map_some]
  have hrun : system.run (boot 0 0 none) [.openNull initPid,.exec initPid true 0 none,.close r 0] =
      some { s with files := x.1 } := by
    simp only [Transition.System.run, hopen, hexec, hclose, Option.bind_some]
  have huser : ∀ s' : State, s'.thread initPid = some .user → Running s' initPid :=
    fun s' hs => ⟨.user,hs,by simp⟩
  have hlive : system.Along (Running · initPid) (boot 0 0 none)
      [.openNull initPid,.exec initPid true 0 none,.close r 0] := by
    refine ⟨huser _ boot_user,fun t1 h1 => ?_⟩
    obtain rfl := Option.some.inj (h1.symm.trans hopen)
    refine ⟨huser _ hp1,fun t2 h2 => ?_⟩
    obtain rfl := Option.some.inj (h2.symm.trans hexec)
    refine ⟨huser _ hp,fun t3 h3 => ?_⟩
    obtain rfl := Option.some.inj (h3.symm.trans hclose)
    exact huser _ hp
  obtain ⟨htable,hsteps⟩ := file_tables_isolated (Or.inr ⟨rfl,rfl,0,0,none,Nat.zero_le _,rfl⟩) _ hrun
    hlive (by simp)
  have hclosed : x.1.FIDT r = Function.update (s.files.FIDT r) 0 none :=
    congrArg Prod.fst (sysClose_table 0 none hx)
  refine ⟨s,_,r,f,hri,hr,by rw [hclosed, Function.update_self],?_,hclose,?_,htable⟩
  · rw [hstep.own initPid hri.symm, hinit]
  · refine hsteps [.openNull initPid,.exec initPid true 0 none] _ [] s _ rfl ?_ hclose
    simp only [Transition.System.run, hopen, hexec, Option.bind_some]

end TinyOS.Kernel
