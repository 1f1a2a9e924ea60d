import TinyOS.Kernel.Execute

/-! ParseProcInfo of tinyoslib.c: what it reclaims of a process made by Execute. -/
namespace TinyOS.Kernel
open Argv

abbrev PROCINFO_MAX_ARGS_SIZE : Nat := 128

/-- The argument buffer of a procinfo, with the first bytes of the real one of argl bytes. -/
structure ProcInfo where
  mainTask : Task
  argl : Int
  args : List UInt8
  size : args.length = PROCINFO_MAX_ARGS_SIZE

def toSize (n : Int) : Nat := (n%2^64).toNat

def storeArgv (out : List (Option (List UInt8))) (ps : List (List UInt8)) :
    List (Option (List UInt8)) :=
  ps.map some++out.drop ps.length

/-- What a pointer prog of the caller points to is some, or prog is NULL; argv likewise. The
program pointer of the buffer is copied to &prog, over the parameter and not to where it
points. -/
def parseProcInfo (pinfo : ProcInfo) (prog : Option Program) (argc : Int)
    (argv : Option (List (Option (List UInt8)))) :
    Option (Int × Option Program × Option (List (Option (List UInt8)))) :=
  if pinfo.mainTask≠.execWrapper then some (-1,prog,argv)
  else if pinfo.argl>PROCINFO_MAX_ARGS_SIZE then some (-1,prog,argv)
  else
    let argl := pinfo.argl-sizeofProgram
    let args := pinfo.args.drop sizeofProgram
    (argscount argl.toNat args).bind fun N => match argv with
      | none => some (toInt N,prog,none)
      | some out =>
        let argc := if toSize argc>N then N else toSize argc
        (argvunpack argc args).map fun (ps,_) => (toInt N,prog,some (storeArgv out ps))

structure Packs (pinfo : ProcInfo) (prog : Program) (strs : List (List UInt8)) : Prop where
  task : pinfo.mainTask = .execWrapper
  argl : pinfo.argl = (packedArgs prog strs).length
  fits : (packedArgs prog strs).length≤PROCINFO_MAX_ARGS_SIZE
  args : pinfo.args.take (packedArgs prog strs).length = packedArgs prog strs
  noZero : ∀ str∈strs, ∀ b∈str, b≠0

def Filled (strs : List (List UInt8)) (out out' : List (Option (List UInt8))) : Prop :=
  ∃ ps, out' = storeArgv out ps ∧ ps.map cString = strs.take (min out.length strs.length)

theorem toSize_eq {n : Nat} (h : n≤INT_MAX) : toSize n = n := by
  have hlt : (n : Int)<2^64 := by
    rw [INT_MAX] at h
    omega
  rw [toSize, Int.emod_eq_of_lt (by omega) hlt, Int.toNat_natCast]

theorem length_le_packed (strs : List (List UInt8)) : strs.length≤(packed strs).length := by
  induction strs with
  | nil => simp
  | cons str strs ih =>
    rw [packed_cons]
    simp only [List.length_append, List.length_cons, List.length_nil]
    omega

theorem parseProcInfo_packs {pinfo : ProcInfo} {p : Program} {strs : List (List UInt8)}
    (h : Packs pinfo p strs) (prog : Option Program) {argc : Nat} (hargc : argc≤INT_MAX)
    (argv : Option (List (Option (List UInt8)))) (hargv : ∀ out, argv = some out → out.length = argc) :
    ∃ argv', parseProcInfo pinfo prog argc argv = some ((strs.length : Int),prog,argv') ∧
      (argv = none → argv' = none) ∧
      ∀ out, argv = some out → ∃ out', argv' = some out' ∧ Filled strs out out' := by
  have hlen := length_packedArgs p strs
  have hle := length_le_packed strs
  have hfits : (packedArgs p strs).length≤128 := h.fits
  have hint : toInt strs.length = strs.length := by
    refine toInt_eq ?_
    rw [INT_MAX]
    omega
  have hargl : (pinfo.argl-(sizeofProgram : Int)).toNat = (packed strs).length := by
    rw [h.argl]
    omega
  have hdrop : pinfo.args.drop sizeofProgram = packed strs++pinfo.args.drop (packedArgs p strs).length := by
    conv_lhs => rw [← List.take_append_drop (packedArgs p strs).length pinfo.args, h.args]
    rw [List.drop_append_of_le_length (by omega), packedArgs,
      List.drop_left' (length_pointerBytes _ _)]
  have hcount : argscount (packed strs).length (pinfo.args.drop sizeofProgram) = some strs.length := by
    rw [hdrop, argscount_count (by simp), List.take_left' rfl]
    have := argscount_packed h.noZero
    rwa [argscount_count (Nat.le_refl _), List.take_length] at this
  simp only [parseProcInfo, h.task, ne_eq, not_true_eq_false, if_false, hargl, hcount, Option.bind_some, hint]
  have hargl' : ¬pinfo.argl>PROCINFO_MAX_ARGS_SIZE := by
    rw [h.argl]
    exact not_lt.mpr (Int.ofNat_le.mpr h.fits)
  rw [if_neg hargl']
  cases argv with
  | none =>
    refine ⟨none,rfl,fun _ => rfl,fun out ho => ?_⟩
    cases ho
  | some out =>
    have hout := hargv out rfl
    have hmin : (if toSize argc>strs.length then strs.length else toSize argc) = min argc strs.length := by
      rw [toSize_eq hargc]
      split <;> omega
    have hsplit : pinfo.args.drop sizeofProgram = packed (strs.take (min argc strs.length))++
        (packed (strs.drop (min argc strs.length))++pinfo.args.drop (packedArgs p strs).length) := by
      rw [hdrop, ← List.append_assoc, ← packed_append, List.take_append_drop]
    have hzero : ∀ str∈strs.take (min argc strs.length), ∀ b∈str, b≠0 :=
      fun str hstr => h.noZero str (List.mem_of_mem_take hstr)
    obtain ⟨ps,hps,hmap⟩ := argvunpack_packed hzero
      (packed (strs.drop (min argc strs.length))++pinfo.args.drop (packedArgs p strs).length)
    rw [← hsplit, List.length_take, Nat.min_eq_left (Nat.min_le_right _ _)] at hps
    simp only [hmin, hps, Option.map_some]
    refine ⟨_,rfl,fun hn => ?_,fun out' ho => ?_⟩
    · cases hn
    · cases ho
      exact ⟨_,rfl,ps,rfl,by rw [hmap, hout]⟩

theorem ProcInfo.count (pinfo : ProcInfo) (hl : pinfo.argl≤PROCINFO_MAX_ARGS_SIZE) :
    ∃ N, argscount (pinfo.argl-sizeofProgram).toNat (pinfo.args.drop sizeofProgram) = some N ∧
      N≤(pinfo.args.drop sizeofProgram).count 0 ∧ toInt N = N := by
  have hsize : (pinfo.args.drop sizeofProgram).length = 120 := by
    rw [List.length_drop, pinfo.size]
    rfl
  have hargl : (pinfo.argl-(sizeofProgram : Int)).toNat≤(pinfo.args.drop sizeofProgram).length := by
    change pinfo.argl≤128 at hl
    change (pinfo.argl-8).toNat≤_
    omega
  refine ⟨_,argscount_count hargl,(List.take_sublist _ _).count_le _,toInt_eq ?_⟩
  have hle := (List.take_sublist (pinfo.argl-(sizeofProgram : Int)).toNat
    (pinfo.args.drop sizeofProgram)).count_le (0 : UInt8)
  have hlen := List.count_le_length (a := (0 : UInt8)) (l := pinfo.args.drop sizeofProgram)
  rw [INT_MAX]
  omega

theorem parseProcInfo_fails (pinfo : ProcInfo) (prog : Option Program) (argc : Int)
    (argv : Option (List (Option (List UInt8)))) :
    ∃ ret prog' argv', parseProcInfo pinfo prog argc argv = some (ret,prog',argv') ∧
      (ret = -1 ∧ prog' = prog ∧ argv' = argv ↔
        pinfo.mainTask≠.execWrapper ∨ pinfo.argl>PROCINFO_MAX_ARGS_SIZE) := by
  by_cases ht : pinfo.mainTask≠.execWrapper
  · exact ⟨-1,prog,argv,by rw [parseProcInfo, if_pos ht],fun _ => .inl ht,fun _ => ⟨rfl,rfl,rfl⟩⟩
  · by_cases hl : pinfo.argl>PROCINFO_MAX_ARGS_SIZE
    · exact ⟨-1,prog,argv,by rw [parseProcInfo, if_neg ht, if_pos hl],fun _ => .inr hl,
        fun _ => ⟨rfl,rfl,rfl⟩⟩
    · obtain ⟨N,hcount,hN,hint⟩ := pinfo.count (not_lt.mp hl)
      have hret : ∀ prog' argv', (toInt N = -1 ∧ prog' = prog ∧ argv' = argv ↔
          pinfo.mainTask≠.execWrapper ∨ pinfo.argl>PROCINFO_MAX_ARGS_SIZE) := by
        intro prog' argv'
        rw [hint]
        exact ⟨fun h => by omega,fun h => (h.elim ht hl).elim⟩
      simp only [parseProcInfo, if_neg ht, if_neg hl, hcount, Option.bind_some]
      cases argv with
      | none => exact ⟨_,_,_,rfl,hret _ _⟩
      | some out =>
        have hargc : (if toSize argc>N then N else toSize argc)≤(pinfo.args.drop sizeofProgram).count 0 := by
          split <;> omega
        obtain ⟨ps,rest,hps,-⟩ := argvunpack_eq hargc
        simp only [hps, Option.map_some]
        exact ⟨_,_,_,rfl,hret _ _⟩

/-- ParseProcInfo inverts the encoding of Execute exactly if it is not asked for the program,
or its address is there already; it fails on other tasks and too long arguments alone. -/
theorem parse_proc_info {pinfo : ProcInfo} {p : Program} {strs : List (List UInt8)}
    (h : Packs pinfo p strs) (prog : Option Program) {argc : Nat} (hargc : argc≤INT_MAX)
    (argv : Option (List (Option (List UInt8)))) (hargv : ∀ out, argv = some out → out.length = argc) :
    ((∃ ret prog' argv', parseProcInfo pinfo prog argc argv = some (ret,prog',argv') ∧
      ret = strs.length ∧ (prog≠none → prog' = some p) ∧
      ∀ out, argv = some out → ∃ out', argv' = some out' ∧ Filled strs out out') ↔
      prog = none ∨ prog = some p) ∧
    ∀ (pinfo : ProcInfo) (prog : Option Program) (argc : Int)
      (argv : Option (List (Option (List UInt8)))),
      ∃ ret prog' argv', parseProcInfo pinfo prog argc argv = some (ret,prog',argv') ∧
        (ret = -1 ∧ prog' = prog ∧ argv' = argv ↔
          pinfo.mainTask≠.execWrapper ∨ pinfo.argl>PROCINFO_MAX_ARGS_SIZE) := by
  obtain ⟨argv',he,-,hfill⟩ := parseProcInfo_packs h prog hargc argv hargv
  refine ⟨⟨?_,?_⟩,parseProcInfo_fails⟩
  · rintro ⟨ret,prog',argv'',he',-,hprog,-⟩
    rw [he, Option.some.injEq, Prod.mk.injEq, Prod.mk.injEq] at he'
    by_cases hn : prog = none
    · exact .inl hn
    · exact .inr (he'.2.1.trans (hprog hn))
  · rintro (rfl | rfl)
    · exact ⟨_,_,_,he,rfl,fun hn => absurd rfl hn,hfill⟩
    · exact ⟨_,_,_,he,rfl,fun _ => rfl,hfill⟩

def hiInfo : ProcInfo where
  mainTask := .execWrapper
  argl := 11
  args := packedArgs 0x400123 [[104,105]]++List.replicate 117 0
  size := by rw [List.length_append, length_packedArgs]; rfl

theorem hiInfo_packs : Packs hiInfo 0x400123 [[104,105]] :=
  ⟨rfl,rfl,by decide,rfl,by simp⟩

theorem parse_proc_info_hi : ∃ argv', parseProcInfo hiInfo none 1 (some [none]) = some (1,none,argv') ∧
    ∃ out', argv' = some out' ∧ Filled [[104,105]] [none] out' := by
  have hargc : 1≤INT_MAX := by decide
  obtain ⟨hiff,-⟩ := parse_proc_info hiInfo_packs none hargc (some [none])
    fun out ho => by cases ho; rfl
  obtain ⟨ret,prog',argv',he,hret,-,hfill⟩ := hiff.mpr (.inl rfl)
  have hprog : prog' = none := by
    obtain ⟨argv'',he',-⟩ := parseProcInfo_packs hiInfo_packs none hargc (some [none])
      fun out ho => by cases ho; rfl
    have he'' := he.symm.trans he'
    rw [Option.some.injEq, Prod.mk.injEq, Prod.mk.injEq] at he''
    exact he''.2.1
  subst hprog hret
  exact ⟨argv',he,hfill _ rfl⟩

/-- The location given for the program keeps its old value. -/
theorem parse_proc_info_stale : Packs hiInfo 0x400123 [[104,105]] ∧
    ∃ argv', parseProcInfo hiInfo (some 0) 0 none = some (1,some 0,argv') ∧
      ¬∃ ret prog' argv', parseProcInfo hiInfo (some 0) 0 none = some (ret,prog',argv') ∧
        prog' = some 0x400123 := by
  obtain ⟨argv',he,-⟩ := parseProcInfo_packs hiInfo_packs (some 0) (Nat.zero_le _) none nofun
  refine ⟨hiInfo_packs,argv',he,?_⟩
  rintro ⟨ret,prog',argv'',he',rfl⟩
  have h : (some 0 : Option Program) = some 0x400123 := by
    have he'' := he.symm.trans he'
    rw [Option.some.injEq, Prod.mk.injEq, Prod.mk.injEq] at he''
    exact he''.2.1
  exact absurd h (by decide)

end TinyOS.Kernel
