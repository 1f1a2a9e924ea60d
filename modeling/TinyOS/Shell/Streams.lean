import TinyOS.Kernel.UserProgram
import TinyOS.Kernel.Execute
import TinyOS.Kernel.Shutdown

/-! The shell as a client of the kernel: boot_shell, the command line and runterm hand their
fids to the processes they start, which find there the streams they are meant to use. -/
namespace TinyOS.Shell.Streams
open RList Tally Transition Sequential Kernel Argv

section Programs

abbrev User := Sequential.Program Call Int

def openNull : User Int := .perform .openNull

def openTerminal (termno : Nat) : User Int := .perform (.openTerminal termno)

def console : User Int := .perform .console

def close (fd : Int) : User Int := .perform (.close fd)

def dup2 (oldfd newfd : Int) : User Int := .perform (.dup2 oldfd newfd)

def waitChild (cpid : Int) : User Int := .perform (.waitChild cpid true)

structure Command where
  prog : Kernel.Program
  argv : List (List UInt8)

def execute (x : Command) : User Int :=
  .perform (.exec ((packed x.argv).length+sizeofProgram) (some (packedArgs x.prog x.argv)))

/-- OpenTerminal, with the stream to be at fid: it is moved there unless it is opened there. -/
def openAt (termno : Nat) (fid : Int) : User Unit := do
  let fd ← openTerminal termno
  if fd≠fid then
    let _ ← dup2 fd fid
    let _ ← close fd

/-- The body of the loop of boot_shell on a machine with terminals. -/
def startShell (sh : Command) (i : Nat) : User Unit := do
  openAt i 0
  openAt i 1
  let _ ← execute sh
  let _ ← close 0
  return ()

/-- The body of the loop of boot_shell on a machine without. -/
def startConsole (sh : Command) (_ : Nat) : User Unit := do
  let _ ← close 0
  let _ ← close 1
  let _ ← console
  let _ ← execute sh
  return ()

def bootShell (terminals : Nat) (sh : Command) : User Unit :=
  if terminals≠0 then .loop (startShell sh) 0 terminals else .loop (startConsole sh) 0 1

def savefid (fsaved : Int) : User Int := do
  let savior ← openNull
  Sequential.Program.assert (savior≠NOFILE)
  let _ ← dup2 fsaved savior
  return savior

/-- process_line for a command without pipes. -/
def processLine (x : Command) : User Unit := do
  let savein ← savefid 0
  let saveout ← savefid 1
  let _ ← dup2 saveout 1
  let _ ← close saveout
  let child ← execute x
  let _ ← dup2 savein 0
  let _ ← close savein
  let _ ← waitChild child
  return ()

def shell (command : Nat → Command) (lines : Nat) : User Unit :=
  .loop (fun i => processLine (command i)) 0 lines

def runTerm (terminals : Nat) (term : Int) (prog : Option Command) : User Int :=
  if term<0 ∨ (terminals : Int)≤term then return 1
  else match prog with
    | none => return 2
    | some prog => do
      openAt term.toNat 0
      let _ ← dup2 0 1
      execute prog

end Programs

section Tables
variable {T : StreamTable} {f g : Fid} {rest : List Fid} {x : Stream}

theorem fidOf_coe (f : Fid) : fidOf (f.val : Int) = some f := by
  rw [fidOf, dif_pos ⟨Int.natCast_nonneg _,by exact_mod_cast f.isLt⟩]
  rfl

theorem fidOf_val {fd : Int} (h : fidOf fd = some f) : (f.val : Int) = fd := by
  unfold fidOf at h
  split at h
  · rename_i hfd
    cases h
    exact Int.toNat_of_nonneg hfd.1
  · cases h

theorem mem_freeFids : f∈T.freeFids ↔ T f = none := by
  simp [StreamTable.freeFids]

theorem opened_free {obj : Option Nat} {ops : FileOps} (h : T.freeFids = f::rest) :
    T.opened true (some (obj,ops)) = (Function.update T f (some (obj,some ops)),(f.val : Int)) := by
  unfold StreamTable.opened
  rw [h]

theorem opened_full {device : Option (Option Nat × FileOps)} (h : T.freeFids = []) :
    T.opened true device = (T,NOFILE) := by
  unfold StreamTable.opened
  rw [h]

theorem freeFids_update (h : T.freeFids = f::rest) :
    StreamTable.freeFids (Function.update T f (some x)) = rest := by
  have hnodup : (f::rest).Nodup := h ▸ (List.nodup_finRange _).filter _
  calc StreamTable.freeFids (Function.update T f (some x))
      = T.freeFids.filter (·≠f) := by
        rw [StreamTable.freeFids, StreamTable.freeFids, List.filter_filter]
        refine List.filter_congr fun i _ => ?_
        by_cases hi : i = f
        · rw [hi, Function.update_self]
          simp
        · rw [Function.update_of_ne hi]
          simp [hi]
    _ = rest := by
        rw [h, List.filter_cons_of_neg (by simp)]
        refine List.filter_eq_self.mpr fun i hi => ?_
        simp only [decide_eq_true_eq]
        rintro rfl
        exact (List.nodup_cons.mp hnodup).1 hi

theorem dup2_open {oldfd newfd : Int} (ho : fidOf oldfd = some f) (hw : fidOf newfd = some g)
    (hf : T f = some x) : T.dup2 oldfd newfd = (Function.update T g (some x),0) := by
  rw [StreamTable.dup2, ho, hw]
  dsimp only
  rw [hf]
  exact if_pos rfl

theorem closed_fid {fd : Int} (h : fidOf fd = some f) :
    T.closed fd = (Function.update T f none,0) := by
  rw [StreamTable.closed, h]

end Tables

section Outlines
variable {ports : Nat} {I : List StreamTable → Prop} {T : StreamTable} {f g fid : Fid}
  {rest : List Fid} {L : List StreamTable} {x y : Stream}

def handed (L : List StreamTable) (T : StreamTable) (i : Call) (_ : Int) : List StreamTable :=
  match i with
  | .exec _ _ => L++[T]
  | _ => L

theorem savefid_outline (fid : Fid) {fd : Int} (hfree : T.freeFids = f::rest) (hfd : fidOf fd = some fid)
    (hx : T fid = some x) (hI : I L) :
    Outline (sem ports) handed I (savefid fd)
      (fun L' T' o => L' = L ∧ T' = Function.update T f (some x) ∧ o = some (f.val : Int)) L T := by
  have hf : T f = none := mem_freeFids.mp (by rw [hfree]; simp)
  have hne : fid≠f := by
    rintro rfl
    rw [hf] at hx
    cases hx
  refine .perform hI fun r T' hs => ?_
  obtain ⟨rfl,rfl⟩ := Prod.mk.inj (hs.trans (opened_free hfree))
  refine .assert (decide_eq_true (by rw [NOFILE]; omega)) ?_
  refine .perform hI fun r T' hs => ?_
  have hx' : Function.update T f (some (none,some .nulldev)) fid = some x := by
    rw [Function.update_of_ne hne, hx]
  obtain ⟨rfl,-⟩ := Prod.mk.inj (hs.trans (dup2_open hfd (fidOf_coe f) hx'))
  exact ⟨rfl,Function.update_idem ..,rfl⟩

theorem savefid_full {fd : Int} (hfree : T.freeFids = []) (hI : I L) :
    Outline (sem ports) handed I (savefid fd) (fun L' _ o => L' = L ∧ o = none) L T := by
  refine .perform hI fun r T' hs => ?_
  obtain ⟨-,rfl⟩ := Prod.mk.inj (hs.trans (opened_full hfree))
  exact .assert_fails rfl ⟨rfl,rfl⟩

/-- A command starts with the fids of the shell and one more, which the shell has saved its
standard input in; the shell has its own fids back. -/
theorem processLine_outline (cmd : Command) (h0 : T 0 = some x) (h1 : T 1 = some y)
    (hfree : T.freeFids = f::g::rest) (hI : I L) (hI' : I (L++[Function.update T f (some x)])) :
    Outline (sem ports) handed I (processLine cmd) (fun L' T' o =>
      L' = L++[Function.update T f (some x)] ∧ T' = T ∧ o = some ()) L T := by
  have hfg : (f::g::rest).Nodup := hfree ▸ (List.nodup_finRange _).filter _
  have hgf : g≠f := fun h => (List.nodup_cons.mp hfg).1 (by simp [h])
  have hf : T f = none := mem_freeFids.mp (by rw [hfree]; simp)
  have hg : T g = none := mem_freeFids.mp (by rw [hfree]; simp)
  have hused : ∀ {i z}, T i = some z → f≠i ∧ g≠i := by
    intro i z hi
    constructor <;> rintro rfl
    · cases hf.symm.trans hi
    · cases hg.symm.trans hi
  refine Outline.bind (savefid_outline 0 hfree rfl h0 hI) ?_ fun _ _ hQ => by cases hQ.2.2
  rintro _ _ savein ⟨rfl,rfl,hin⟩
  obtain rfl : savein = f.val := Option.some.inj hin
  have h1' : Function.update T f (some x) 1 = some y := by
    rw [Function.update_of_ne (hused h1).1.symm, h1]
  refine Outline.bind (savefid_outline 1 (freeFids_update hfree) rfl h1' hI) ?_
    fun _ _ hQ => by cases hQ.2.2
  rintro _ _ saveout ⟨rfl,rfl,hout⟩
  obtain rfl : saveout = g.val := Option.some.inj hout
  -- the standard output is saved and restored at once, without a pipe between
  refine .perform hI fun r T' hs => ?_
  obtain ⟨rfl,-⟩ := Prod.mk.inj (hs.trans (dup2_open (g := 1) (fidOf_coe g) rfl
    (Function.update_self ..)))
  refine .perform hI fun r T' hs => ?_
  obtain ⟨rfl,-⟩ := Prod.mk.inj (hs.trans (closed_fid (fidOf_coe g)))
  have hclosed : Function.update (Function.update (Function.update (Function.update T f (some x)) g
      (some y)) 1 (some y)) g none = Function.update T f (some x) := by
    funext i
    simp only [Function.update_apply]
    split
    · rename_i hi
      rw [hi, if_neg hgf, hg]
    · split
      · rename_i hi
        rw [hi, if_neg (hused h1).1.symm, h1]
      · rfl
  rw [hclosed]
  refine .perform hI fun child T' hs => ?_
  obtain rfl : T' = Function.update T f (some x) := hs
  have hself : Function.update T f (some x) f = some x := Function.update_self ..
  refine .perform hI' fun r T' hs => ?_
  obtain ⟨rfl,-⟩ := Prod.mk.inj (hs.trans (dup2_open (g := 0) (fidOf_coe f) rfl hself))
  refine .perform hI' fun r T' hs => ?_
  obtain ⟨rfl,-⟩ := Prod.mk.inj (hs.trans (closed_fid (fidOf_coe f)))
  have hback : Function.update (Function.update (Function.update T f (some x)) 0 (some x)) f none =
      T := by
    funext i
    simp only [Function.update_apply]
    split
    · rename_i hi
      rw [hi, hf]
    · split
      · rename_i hi
        rw [hi, h0]
      · rfl
  rw [hback]
  refine .perform hI' fun r T' hs => ?_
  exact ⟨rfl,hs,rfl⟩

theorem processLine_aborts (cmd : Command) (h0 : T 0 = some x) (hfree : T.freeFids.length<2)
    (hI : I L) : Outline (sem ports) handed I (processLine cmd) (fun L' _ o => L' = L ∧ o = none)
      L T := by
  cases hfids : T.freeFids with
  | nil =>
    refine Outline.bind (savefid_full hfids hI) ?_ fun _ _ hQ => ⟨hQ.1,rfl⟩
    rintro _ _ _ ⟨-,hQ⟩
    cases hQ
  | cons f rest =>
    rw [hfids, List.length_cons] at hfree
    obtain rfl : rest = [] := List.eq_nil_of_length_eq_zero (by omega)
    refine Outline.bind (savefid_outline 0 hfids rfl h0 hI) ?_ fun _ _ hQ => by cases hQ.2.2
    rintro _ _ _ ⟨rfl,rfl,-⟩
    refine Outline.bind (savefid_full (freeFids_update hfids) hI) ?_ fun _ _ hQ => ⟨hQ.1,rfl⟩
    rintro _ _ _ ⟨-,hQ⟩
    cases hQ

def terminal (i : Nat) : Stream := (some i,some .serial)

theorem deviceOpen_terminal {i : Nat} (hi : i < ports) :
    deviceOpen ports .DEV_SERIAL i = some (some i,.serial) := by
  rw [deviceOpen, devnum, if_neg (by omega)]

theorem openAt_outline {i : Nat} (hi : i < ports) (hfree : T.freeFids = f::rest) {fd : Int}
    (hfid : fidOf fd = some g) (hI : I L) :
    Outline (sem ports) handed I (openAt i fd)
      (fun L' T' o => L' = L ∧ T' = Function.update T g (some (terminal i)) ∧
        o = some ()) L T := by
  have hf : T f = none := mem_freeFids.mp (by rw [hfree]; simp)
  refine .perform hI fun r T' hs => ?_
  rw [sem, deviceOpen_terminal hi] at hs
  obtain ⟨rfl,rfl⟩ := Prod.mk.inj (hs.trans (opened_free hfree))
  by_cases hne : (f.val : Int) = fd
  · obtain rfl : f = g := Option.some.inj ((fidOf_coe f).symm.trans (hne ▸ hfid))
    rw [if_neg (by simpa using hne)]
    exact ⟨rfl,rfl,rfl⟩
  · have hgf : g≠f := by
      rintro rfl
      exact hne (fidOf_val hfid)
    rw [if_pos hne]
    refine .perform hI fun r T' hs => ?_
    obtain ⟨rfl,-⟩ := Prod.mk.inj (hs.trans (dup2_open (fidOf_coe f) hfid
      (Function.update_self ..)))
    refine .perform hI fun r T' hs => ?_
    obtain ⟨rfl,-⟩ := Prod.mk.inj (hs.trans (closed_fid (fidOf_coe f)))
    refine ⟨rfl,?_,rfl⟩
    funext j
    simp only [Function.update_apply]
    by_cases hj : j = f
    · rw [if_pos hj, if_neg (by rw [hj]; exact hgf.symm), hj, hf]
    · simp only [if_neg hj]
      rfl

def onStream (x : Stream) : StreamTable :=
  Function.update (Function.update StreamTable.empty 0 (some x)) 1 (some x)

theorem ne_freeFids (h : T f = none) : ∃ g rest, T.freeFids = g::rest :=
  List.exists_cons_of_ne_nil (List.ne_nil_of_mem (mem_freeFids.mpr h))

/-- Each round of boot_shell starts a shell on its terminal, and leaves at most fid 1 open. -/
theorem startShell_outline (sh : Command) {i : Nat} (hi : i < ports) {o : Option Stream}
    (hT : T = Function.update StreamTable.empty 1 o) (hI : I L)
    (hI' : I (L++[onStream (terminal i)])) :
    Outline (sem ports) handed I (startShell sh i) (fun L' T' o' => o' = some () ∧
      L' = L++[onStream (terminal i)] ∧
      T' = Function.update StreamTable.empty 1 (some (terminal i))) L T := by
  obtain ⟨f,rest,hfree⟩ : ∃ f rest, T.freeFids = f::rest :=
    ne_freeFids (f := 0) (by rw [hT, Function.update_of_ne (by decide)]; rfl)
  refine Outline.bind (openAt_outline (g := 0) hi hfree rfl hI) ?_ fun _ _ hQ => by cases hQ.2.2
  rintro _ _ _ ⟨rfl,rfl,-⟩
  obtain ⟨f,rest,hfree⟩ : ∃ f rest,
      StreamTable.freeFids (Function.update T 0 (some (terminal i))) = f::rest :=
    ne_freeFids (f := 2) (by
      rw [hT, Function.update_of_ne (by decide), Function.update_of_ne (by decide)]
      rfl)
  refine Outline.bind (openAt_outline (g := 1) hi hfree rfl hI) ?_ fun _ _ hQ => by cases hQ.2.2
  rintro _ _ _ ⟨rfl,rfl,-⟩
  have hboth : Function.update (Function.update T 0 (some (terminal i))) 1
      (some (terminal i)) = onStream (terminal i) := by
    rw [hT, Function.update_comm (by decide), Function.update_idem]
    exact Function.update_comm (by decide) ..
  rw [hboth]
  refine .perform hI fun r T' hs => ?_
  obtain rfl : T' = onStream (terminal i) := hs
  refine .perform hI' fun r T' hs => ?_
  obtain ⟨rfl,-⟩ := Prod.mk.inj (hs.trans (closed_fid (f := 0) rfl))
  refine ⟨rfl,rfl,?_⟩
  funext j
  simp only [onStream, Function.update_apply]
  by_cases hj : j = 0
  · rw [if_pos hj, hj]
    rfl
  · rw [if_neg hj, if_neg hj]

theorem startConsole_outline (sh : Command) (i : Nat) (hT : T = StreamTable.empty)
    (hI : I L) : Outline (sem ports) handed I (startConsole sh i) (fun L' _ o => o = some () ∧
      L' = L++[onStream (none,some .stdio)]) L T := by
  have hclosed : ∀ fid, Function.update T fid none = T := by
    intro fid
    rw [hT]
    exact Function.update_eq_self fid StreamTable.empty
  refine .perform hI fun r T' hs => ?_
  obtain ⟨rfl,-⟩ := Prod.mk.inj (hs.trans (closed_fid (f := 0) rfl))
  rw [hclosed]
  refine .perform hI fun r T' hs => ?_
  obtain ⟨rfl,-⟩ := Prod.mk.inj (hs.trans (closed_fid (f := 1) rfl))
  rw [hclosed]
  refine .perform hI fun r T' hs => ?_
  obtain ⟨-,-,rfl⟩ := hs
  refine .perform hI fun r T' _ => ?_
  refine ⟨rfl,?_⟩
  rw [handed, hT]
  rfl

def shells (terminals n : Nat) : List StreamTable :=
  (List.range n).map fun i => onStream (if terminals = 0 then (none,some .stdio) else terminal i)

theorem shells_succ (terminals n : Nat) : shells terminals (n+1) = shells terminals n++
    [onStream (if terminals = 0 then (none,some .stdio) else terminal n)] := by
  rw [shells, List.range_succ, List.map_append]
  rfl

theorem bootShell_outline (sh : Command) (hT : T = StreamTable.empty) :
    Outline (sem ports) handed (fun L => ∃ n≤ max 1 ports, L = shells ports n) (bootShell ports sh)
      (fun L' _ o => o = some () ∧ L' = shells ports (max 1 ports)) [] T := by
  unfold bootShell
  split
  · rename_i hports
    have hmax : max 1 ports = ports := by omega
    have hnext : ∀ i, shells ports i++[onStream (terminal i)] = shells ports (i+1) := by
      intro i
      rw [shells_succ, if_neg hports]
    rw [hmax]
    let J := fun (i : Nat) (L : List StreamTable) (T : StreamTable) =>
      L = shells ports i ∧ ∃ o, T = Function.update StreamTable.empty 1 o
    have hJ : J 0 [] T := ⟨rfl,none,by
      rw [hT]
      exact (Function.update_eq_self (1 : Fid) StreamTable.empty).symm⟩
    refine (Outline.loop (J := J) ?_ hJ).mono ?_
    · rintro i _ T hi ⟨rfl,o,hT⟩
      rw [Nat.zero_add] at hi
      refine (startShell_outline sh hi hT ⟨i,hi.le,rfl⟩ ⟨i+1,hi,hnext i⟩).mono ?_
      rintro _ _ _ ⟨ho,rfl,rfl⟩
      exact ⟨ho,hnext i,_,rfl⟩
    · rintro L _ _ ⟨ho,hL,-⟩
      rw [Nat.zero_add] at hL
      exact ⟨ho,hL⟩
  · rename_i hports
    obtain rfl : ports = 0 := not_not.mp hports
    refine Outline.bind (startConsole_outline sh 0 hT ⟨0,Nat.zero_le _,rfl⟩) ?_
      fun _ _ hQ => by cases hQ.1
    rintro L _ _ ⟨-,rfl⟩
    exact ⟨rfl,rfl⟩

theorem shell_outline (command : Nat → Command) (lines : Nat) (h0 : T 0 = some x)
    (h1 : T 1 = some y) (hfree : T.freeFids = f::g::rest) :
    Outline (sem ports) handed
      (fun L => ∃ n≤lines, L = List.replicate n (Function.update T f (some x)))
      (shell command lines) (fun L' T' o => o = some () ∧ T' = T ∧
        L' = List.replicate lines (Function.update T f (some x))) [] T := by
  let J := fun (i : Nat) (L : List StreamTable) (T' : StreamTable) =>
    L = List.replicate i (Function.update T f (some x)) ∧ T' = T
  refine (Outline.loop (J := J) ?_ ⟨rfl,rfl⟩).mono ?_
  · rintro i _ _ hi ⟨rfl,rfl⟩
    rw [Nat.zero_add] at hi
    refine (processLine_outline (command i) h0 h1 hfree ⟨i,hi.le,rfl⟩
      ⟨i+1,hi,List.replicate_succ'.symm⟩).mono ?_
    rintro _ _ _ ⟨rfl,rfl,ho⟩
    exact ⟨ho,List.replicate_succ'.symm,rfl⟩
  · rintro _ _ _ ⟨ho,hL,hT⟩
    rw [Nat.zero_add] at hL
    exact ⟨ho,hT,hL⟩

theorem shell_aborts (command : Nat → Command) (lines : Nat) (h0 : T 0 = some x)
    (hfree : T.freeFids.length<2) :
    Outline (sem ports) handed (fun L => L = []) (shell command lines)
      (fun L' _ o => L' = [] ∧ (o = none ∨ lines = 0)) [] T := by
  cases lines with
  | zero => exact ⟨rfl,.inr rfl⟩
  | succ lines =>
    refine Outline.bind (processLine_aborts (command 0) h0 hfree rfl) ?_
      fun _ _ hQ => ⟨hQ.1,.inl rfl⟩
    rintro _ _ _ ⟨-,hQ⟩
    cases hQ

theorem runTerm_valid {term : Int} {prog : Command} (hterm : ¬(term<0 ∨ (ports : Int)≤term)) :
    Outline (sem ports) handed (· = []) (runTerm ports term (some prog)) (fun L' _ o => o≠none ∧
      ∃ z, L' = [Function.update (Function.update T 0 z) 1 z] ∧
        z = if T.freeFids = [] then T 0 else some (terminal term.toNat)) [] T := by
  have hlt : term.toNat < ports := by omega
  rw [runTerm, if_neg hterm]
  cases hfids : T.freeFids with
  | nil =>
    obtain ⟨z,hz⟩ : ∃ z, T 0 = some z := by
      refine Option.ne_none_iff_exists'.mp fun h0 => ?_
      rw [← mem_freeFids, hfids] at h0
      cases h0
    refine Outline.bind (Q := fun L' T' o => o≠none ∧ L' = [] ∧ T' = T) ?_ ?_
      fun _ _ hQ => absurd rfl hQ.1
    · refine .perform rfl fun r T' hs => ?_
      obtain ⟨rfl,rfl⟩ := Prod.mk.inj (hs.trans (opened_full hfids))
      refine .perform rfl fun r T' hs => ?_
      obtain rfl : T' = _ := (Prod.mk.inj hs).1
      refine .perform rfl fun r T' hs => ?_
      obtain rfl : T' = _ := (Prod.mk.inj hs).1
      exact ⟨by simp,rfl,rfl⟩
    · rintro _ T _ ⟨-,rfl,rfl⟩
      refine .perform rfl fun r T' hs => ?_
      obtain ⟨rfl,-⟩ := Prod.mk.inj (hs.trans (dup2_open (f := 0) (g := 1) rfl rfl hz))
      have hsame : Function.update T 0 (some z) = T := by
        rw [← hz]
        exact Function.update_eq_self 0 T
      refine ⟨rfl,fun r T' _ => ⟨by simp,some z,?_,?_⟩⟩
      · rw [hsame]
        rfl
      · rw [if_pos rfl, hz]
  | cons f rest =>
    refine Outline.bind (openAt_outline (g := 0) hlt hfids rfl rfl) ?_ fun _ _ hQ => by cases hQ.2.2
    rintro _ _ _ ⟨rfl,rfl,-⟩
    refine .perform rfl fun r T' hs => ?_
    obtain ⟨rfl,-⟩ := Prod.mk.inj (hs.trans (dup2_open (f := 0) (g := 1) rfl rfl
      (Function.update_self ..)))
    exact ⟨rfl,fun r T' _ => ⟨by simp,_,rfl,by simp⟩⟩

/-- runterm hands the terminal on at the fids 0 and 1, or if it has no free fid to open it its
standard input at both. -/
theorem runTerm_outline (term : Int) (prog : Option Command) :
    Outline (sem ports) handed (· = []) (runTerm ports term prog) (fun L' _ o => o≠none ∧
      L' = if 0≤term ∧ term<ports ∧ prog≠none then
        let z := if T.freeFids = [] then T 0 else some (terminal term.toNat)
        [Function.update (Function.update T 0 z) 1 z] else []) [] T := by
  by_cases hterm : term<0 ∨ (ports : Int)≤term
  · unfold runTerm
    rw [if_pos hterm]
    exact ⟨by simp,(if_neg (by omega)).symm⟩
  · cases prog with
    | none =>
      unfold runTerm
      rw [if_neg hterm]
      exact ⟨by simp,(if_neg (by simp)).symm⟩
    | some prog =>
      refine (runTerm_valid hterm).mono ?_
      rintro L _ o ⟨ho,z,rfl,rfl⟩
      refine ⟨ho,(if_pos ?_).symm⟩
      exact ⟨by omega,by omega,by simp⟩

end Outlines

section Nested
variable {x : Stream}

def nested (x : Stream) (d : Nat) : StreamTable := fun i => if i.val < d+2 then some x else none

theorem nested_zero : nested x 0 = onStream x := by
  funext i
  simp only [nested, onStream, Function.update_apply, StreamTable.empty]
  by_cases h1 : i = 1
  · rw [h1]
    rfl
  · by_cases h0 : i = 0
    · rw [h0]
      rfl
    · have hi : ¬i.val<0+2 := fun hlt => by
        have h0' := Fin.val_ne_of_ne h0
        have h1' := Fin.val_ne_of_ne h1
        simp only [Fin.val_zero, Fin.val_one] at h0' h1'
        omega
      rw [if_neg h1, if_neg h0, if_neg hi]

theorem nested_succ {d : Nat} (hd : d+2 < MAX_FILEID) :
    Function.update (nested x d) ⟨d+2,hd⟩ (some x) = nested x (d+1) := by
  funext i
  simp only [nested, Function.update_apply, Fin.ext_iff]
  by_cases hi : i.val = d+2
  · rw [if_pos hi, if_pos (by omega)]
  · rw [if_neg hi]
    have hlt : i.val<d+2 ↔ i.val<d+1+2 := by omega
    simp only [hlt]

theorem nested_freeFids (d : Nat) :
    (nested x d).freeFids = (List.finRange MAX_FILEID).filter fun i => !decide (i.val<d+2) := by
  refine List.filter_congr fun i _ => ?_
  rw [nested]
  by_cases hi : i.val<d+2
  · rw [if_pos hi, decide_eq_true hi]
    rfl
  · rw [if_neg hi, decide_eq_false hi]
    rfl

theorem finRange_free : ∀ d : Fin 13,
    (List.finRange MAX_FILEID).filter (fun i => !decide (i.val<d.val+2)) =
      ⟨d.val+2,by rw [MAX_FILEID]; omega⟩::⟨d.val+3,by rw [MAX_FILEID]; omega⟩::
        (List.finRange MAX_FILEID).filter fun i => !decide (i.val<d.val+4) := by decide

theorem nested_free {d : Nat} (hd : d < 13) : ∃ g rest,
    (nested x d).freeFids = (⟨d+2,by rw [MAX_FILEID]; omega⟩ : Fid)::g::rest := by
  rw [nested_freeFids]
  exact ⟨_,_,finRange_free ⟨d,hd⟩⟩

end Nested

section Runs
variable {ports : Nat} {p : PcbRef} {s t : State} {x y : Stream} {δ : Type}
  {h : List (State × Call × Int)}

def handedIn (p : PcbRef) (h : List (State × Call × Int)) : List StreamTable :=
  Client.noted (State.streams · p) handed h []

def Inherited (p : PcbRef) (h : List (State × Call × Int)) : Prop :=
  ∀ s1 argl args r, (s1,.exec argl args,r)∈h → r≠NOPROC →
    ∃ s2 q, system.next s1 (.exec p true argl args) = some s2 ∧ r = q.val ∧
      s2.streams q = s1.streams p

end Runs
end TinyOS.Shell.Streams
