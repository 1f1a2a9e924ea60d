import TinyOS.Kernel.Tasked

/-! What the file system is for: each process has its own map from fids to devices, copied
by Exec and emptied by Exit. The FCBs with their counts, their free list and the sharing of
streams between processes are not seen. -/
namespace TinyOS.Kernel
open RList Tally Transition

abbrev Stream := Option Nat × Option FileOps

abbrev StreamTable := Fid → Option Stream

def Files.stream (F : Files) (f : FcbRef) : Stream := ((F.FT f).streamobj,(F.FT f).streamfunc)

def Files.streams (F : Files) (p : PcbRef) : StreamTable := fun i => (F.FIDT p i).map F.stream

namespace StreamTable

def empty : StreamTable := fun _ => none

def freeFids (T : StreamTable) : List Fid := (List.finRange MAX_FILEID).filter fun i => (T i).isNone

def opened (T : StreamTable) (ok : Bool) (device : Option (Option Nat × FileOps)) :
    StreamTable × Int :=
  match T.freeFids, ok, device with
  | fid::_, true, some (obj,ops) => (Function.update T fid (some (obj,some ops)),fid.val)
  | _, _, _ => (T,NOFILE)

def closed (T : StreamTable) (fd : Int) : StreamTable × Int :=
  match fidOf fd with
  | some fid => (Function.update T fid none,0)
  | none => (T,-1)

def dup2 (T : StreamTable) (oldfd newfd : Int) : StreamTable × Int :=
  match fidOf oldfd, fidOf newfd with
  | some old, some new => if (T old).isSome then (Function.update T new (T old),0) else (T,-1)
  | _, _ => (T,-1)

def console (T : StreamTable) : StreamTable :=
  Function.update (Function.update T 0 (some (none,some .stdio))) 1 (some (none,some .stdio))

def write (T : StreamTable) (fd : Int) (size fuel out : Nat) (accept : Nat → Bool) : Option Int :=
  match (fidOf fd).bind T with
  | none => some (-1)
  | some (_,ops) => (ops.bind fun ops => ops.write size fuel out accept).map toInt

def deviceRead (size inp : Nat) (valid : Nat → Bool) : Stream → Option Int
  | (_,some .nulldev) => some (toInt size)
  | (_,some .stdio) => some (toInt (min inp size))
  | (some _,some .serial) => (serialRead valid size (size+1) 0).map toInt
  | _ => none

def read (T : StreamTable) (fd : Int) (size inp : Nat) (valid : Nat → Bool) : Option Int :=
  match (fidOf fd).bind T with
  | none => some (-1)
  | some stream => deviceRead size inp valid stream

def call (ports : Nat) (ok : Bool) (T : StreamTable) : Label → StreamTable × Int
  | .openNull _ => T.opened ok (deviceOpen ports .DEV_NULL 0)
  | .openTerminal _ termno => T.opened ok (deviceOpen ports .DEV_SERIAL termno)
  | .close _ fd => T.closed fd
  | .dup2 _ oldfd newfd => T.dup2 oldfd newfd
  | _ => (T,0)

end StreamTable

section Files
variable {F F' : Files} {n : FcbRef → Nat} {p q : PcbRef} {fl : List FcbRef}

theorem SameStreams.stream (h : SameStreams F F') (f : FcbRef) : F'.stream f = F.stream f := by
  rw [Files.stream, Files.stream, (h f).1, (h f).2]

theorem streams_congr (hT : F'.FIDT q = F.FIDT q)
    (hS : ∀ i f, F.FIDT q i = some f → F'.stream f = F.stream f) :
    F'.streams q = F.streams q := by
  funext i
  rw [Files.streams, Files.streams, hT]
  cases hf : F.FIDT q i with
  | none => rfl
  | some f => rw [Option.map_some, Option.map_some, hS i f hf]

theorem SameStreams.streams (h : SameStreams F F') (hT : F'.FIDT q = F.FIDT q) :
    F'.streams q = F.streams q := streams_congr hT fun _ f _ => h.stream f

theorem SameStreams.own (h : SameStreams F F') (hown : ∀ q, q≠p → F'.FIDT q = F.FIDT q) :
    F'.streams = Function.update F.streams p (F'.streams p) := by
  funext q
  by_cases hq : q = p
  · rw [hq, Function.update_self]
  · rw [Function.update_of_ne hq, h.streams (hown q hq)]

theorem freeFids_eq (F : Files) (p : PcbRef) : (F.streams p).freeFids = emptyFids (F.FIDT p) := by
  rw [StreamTable.freeFids, emptyFids]
  refine List.filter_congr fun i _ => ?_
  rw [Files.streams]
  cases F.FIDT p i <;> rfl

theorem SameStreams.update (h : SameStreams F F') {fid : Fid} {o : Option FcbRef}
    (hT : F'.FIDT p = Function.update (F.FIDT p) fid o) :
    F'.streams p = Function.update (F.streams p) fid (o.map F.stream) := by
  funext i
  rw [Files.streams, hT]
  by_cases hi : i = fid
  · rw [hi, Function.update_self, Function.update_self]
    cases o with
    | none => rfl
    | some f => rw [Option.map_some, Option.map_some, h.stream f]
  · rw [Function.update_of_ne hi, Function.update_of_ne hi, Files.streams]
    cases F.FIDT p i with
    | none => rfl
    | some f => rw [Option.map_some, Option.map_some, h.stream f]

theorem close_streams (hn : FilesOk F n) {fd : Int} {r : Files × Int}
    (hr : sysClose F p fd = some r) :
    r.1.streams = Function.update F.streams p ((F.streams p).closed fd).1 ∧
      r.2 = ((F.streams p).closed fd).2 := by
  obtain ⟨r',hr',hstep⟩ := hn.sysClose p fd
  obtain rfl : r' = r := Option.some.inj (hr'.symm.trans hr)
  have hS := sameStreams_close hr
  have hT := sysClose_table 0 none hr
  rw [hS.own hstep.own]
  simp only [replay] at hT
  rw [StreamTable.closed]
  cases hfid : fidOf fd with
  | none =>
    rw [hfid] at hT
    obtain ⟨hT,hret⟩ := Prod.mk.inj hT
    rw [hS.streams hT]
    exact ⟨rfl,hret⟩
  | some fid =>
    rw [hfid] at hT
    obtain ⟨hT,hret⟩ := Prod.mk.inj hT
    rw [hS.update hT]
    exact ⟨rfl,hret⟩

theorem dup2_streams (hn : FilesOk F n) (hle : ∀ f, n f≤MAX_PROC) {oldfd newfd : Int}
    {r : Files × Int} (hr : sysDup2 F p oldfd newfd = some r) :
    r.1.streams = Function.update F.streams p ((F.streams p).dup2 oldfd newfd).1 ∧
      r.2 = ((F.streams p).dup2 oldfd newfd).2 := by
  obtain ⟨r',hr',hstep⟩ := hn.sysDup2 hle p oldfd newfd
  obtain rfl : r' = r := Option.some.inj (hr'.symm.trans hr)
  have hS := sameStreams_dup2 hr
  have hT := sysDup2_table 0 none hr
  rw [hS.own hstep.own]
  simp only [replay] at hT
  rw [StreamTable.dup2]
  have hkeep : r'.1.FIDT p = F.FIDT p → r'.1.streams p = F.streams p := hS.streams
  cases ho : fidOf oldfd with
  | none =>
    rw [ho] at hT
    obtain ⟨hT,hret⟩ := Prod.mk.inj hT
    exact ⟨by rw [hkeep hT],hret⟩
  | some old =>
    cases hw : fidOf newfd with
    | none =>
      rw [ho, hw] at hT
      obtain ⟨hT,hret⟩ := Prod.mk.inj hT
      exact ⟨by rw [hkeep hT],hret⟩
    | some new =>
      rw [ho, hw] at hT
      have hsome : ((F.streams p) old).isSome = (F.FIDT p old).isSome := Option.isSome_map
      dsimp only
      rw [hsome]
      by_cases hold : (F.FIDT p old).isSome = true
      · simp only [hold, if_true] at hT ⊢
        obtain ⟨hT,hret⟩ := Prod.mk.inj hT
        rw [hS.update hT]
        exact ⟨rfl,hret⟩
      · simp only [hold] at hT ⊢
        obtain ⟨hT,hret⟩ := Prod.mk.inj hT
        exact ⟨by rw [hkeep hT]; rfl,hret⟩

theorem stream_setStream (F : Files) (f : FcbRef) (obj : Option Nat) (ops : FileOps) (e : FcbRef) :
    (setStream F f obj ops).stream e = if e = f then (obj,some ops) else F.stream e := by
  by_cases he : e = f
  · rw [he, if_pos rfl, Files.stream, setStream, Files.modFCB]
    simp only [Function.update_self]
  · rw [if_neg he, Files.stream, setStream, Files.modFCB]
    simp only [Function.update_of_ne he]
    rfl

theorem lowestFree_eq (F : Files) (p : PcbRef) :
    lowestFree (F.FIDT p) = (F.streams p).freeFids.head? := by
  rw [freeFids_eq, emptyFids, List.head?_filter, lowestFree]

theorem openStream_new (hc : Counted F (refs F n) fl) {ports : Nat} {major : DeviceType}
    {minor : Nat} {r : Files × Int} (hr : openStream F p ports major minor = some r) :
    SameStreams F r.1 ∧ r.2 = NOFILE ∨ ∃ F1 f obj ops, nextFCB F = some f ∧
      deviceOpen ports major minor = some (obj,ops) ∧ SameStreams F F1 ∧
      r.1 = setStream F1 f obj ops := by
  by_cases hfail : (findFids (F.FIDT p) 1 0).length<1 ∨ fl.length<1
  · obtain ⟨F1,fl',hres,-⟩ := reserve_fail (p := p) hc.ring hfail
    simp only [openStream, hres, Option.bind_some, Option.some.injEq] at hr
    rw [← hr]
    exact .inl ⟨sameStreams_reserveFCB hres,rfl⟩
  · obtain ⟨hfid,hlen⟩ := not_or.mp hfail
    obtain ⟨F1,hres,-⟩ := reserve_ok (p := p) hc.ring hfid (by omega)
    obtain ⟨f,fl,rfl⟩ : ∃ f fl', fl = f::fl' := List.exists_cons_of_length_pos (by omega)
    obtain ⟨fid,fids,hfids⟩ : ∃ fid fids, findFids (F.FIDT p) 1 0 = fid::fids :=
      List.exists_cons_of_length_pos (by omega)
    have hS := sameStreams_reserveFCB hres
    rw [hfids, List.take_succ_cons, List.take_zero] at hres
    cases hdev : deviceOpen ports major minor with
    | none =>
      simp only [openStream, hres, Option.bind_some, hdev] at hr
      obtain ⟨F2,hun,rfl⟩ := Option.map_eq_some_iff.mp hr
      exact .inl ⟨hS.trans (sameStreams_unreserveFCB _ hun),rfl⟩
    | some d =>
      obtain ⟨obj,ops⟩ := d
      simp only [openStream, hres, Option.bind_some, hdev, Option.some.injEq] at hr
      rw [← hr]
      exact .inr ⟨F1,f,obj,ops,nextFCB_cons hc.ring,rfl,hS,rfl⟩

theorem open_streams (hn : FilesOk F n) {ports : Nat} {major : DeviceType} {minor : Nat}
    {r : Files × Int} (hr : openStream F p ports major minor = some r) :
    r.1.streams = Function.update F.streams p
        ((F.streams p).opened (nextFCB F).isSome (deviceOpen ports major minor)).1 ∧
      r.2 = ((F.streams p).opened (nextFCB F).isSome (deviceOpen ports major minor)).2 := by
  obtain ⟨r',hr',hstep⟩ := hn.openStream p ports major minor
  obtain rfl : r' = r := Option.some.inj (hr'.symm.trans hr)
  obtain ⟨fl,hc⟩ := hn
  have hT := openStream_table hc ports major minor hr
  -- a table that is left alone does not name the FCB that is opened
  have hstream : ∀ q i e, F.FIDT q i = some e → r'.1.stream e = F.stream e := by
    intro q i e he
    rcases openStream_new hc hr with ⟨hS,_⟩|⟨F1,f,obj,ops,hf,_,hS,hr1⟩
    · exact hS.stream e
    · rw [hr1, stream_setStream, if_neg, hS.stream]
      rintro rfl
      exact hc.fresh hf q i he
  have hkeep : ∀ q, r'.1.FIDT q = F.FIDT q → r'.1.streams q = F.streams q :=
    fun q hq => streams_congr hq fun i e he => hstream q i e he
  have hown : r'.1.streams = Function.update F.streams p (r'.1.streams p) := by
    funext q
    by_cases hq : q = p
    · rw [hq, Function.update_self]
    · rw [Function.update_of_ne hq, hkeep q (hstep.own q hq)]
  rw [hown]
  unfold replayOpen at hT
  rw [lowestFree_eq] at hT
  unfold StreamTable.opened
  cases hfree : (F.streams p).freeFids with
  | nil =>
    rw [hfree] at hT
    obtain ⟨hT,hret⟩ := Prod.mk.inj hT
    exact ⟨by rw [hkeep p hT],hret⟩
  | cons fid fids =>
    rw [hfree, List.head?_cons] at hT
    cases hnew : nextFCB F with
    | none =>
      rw [hnew] at hT
      obtain ⟨hT,hret⟩ := Prod.mk.inj hT
      exact ⟨by rw [hkeep p hT]; rfl,hret⟩
    | some f =>
      rw [hnew] at hT
      cases hdev : deviceOpen ports major minor with
      | none =>
        rw [hdev] at hT
        obtain ⟨hT,hret⟩ := Prod.mk.inj hT
        exact ⟨by rw [hkeep p hT]; rfl,hret⟩
      | some d =>
        rw [hdev] at hT
        obtain ⟨htable,hret⟩ := Prod.mk.inj hT
        rcases openStream_new hc hr with ⟨_,hno⟩|⟨F1,f',obj,ops,hf',hd',_,hr1⟩
        · rw [hret, NOFILE] at hno
          omega
        · obtain rfl : f = f' := Option.some.inj (hnew.symm.trans hf')
          obtain rfl : d = (obj,ops) := Option.some.inj (hdev.symm.trans hd')
          have hp : r'.1.streams p = Function.update (F.streams p) fid (some (obj,some ops)) := by
            funext i
            rw [Files.streams, htable]
            by_cases hi : i = fid
            · rw [hi, Function.update_self, Function.update_self, Option.map_some, hr1,
                stream_setStream, if_pos rfl]
            · rw [Function.update_of_ne hi, Function.update_of_ne hi, Files.streams]
              cases he : F.FIDT p i with
              | none => rfl
              | some e => rw [Option.map_some, Option.map_some, hstream p i e he]
          exact ⟨congrArg _ hp,hret⟩

theorem console_streams (hn : FilesOk F n) (hF : pseudoConsole F p = some F') :
    F'.streams = Function.update F.streams p (F.streams p).console ∧
      F.streams p 0 = none ∧ F.streams p 1 = none := by
  have hstep := hn.pseudoConsole hF
  obtain ⟨fl,hc⟩ := hn
  unfold pseudoConsole at hF
  by_cases hfail : (findFids (F.FIDT p) 2 0).length<2 ∨ fl.length<2
  · obtain ⟨F1,fl',hres,-⟩ := reserve_fail hc.ring hfail
    simp [hres] at hF
  · obtain ⟨hfid,hlen⟩ := not_or.mp hfail
    obtain ⟨F1,hres,_,_,hq,hi,hset,_⟩ := reserve_ok (p := p) hc.ring hfid (by omega)
    have hS := sameStreams_reserveFCB hres
    obtain ⟨f,fl,rfl⟩ : ∃ f fl', fl = f::fl' := List.exists_cons_of_length_pos (by omega)
    obtain ⟨g,fl,rfl⟩ : ∃ g fl', fl = g::fl' :=
      List.exists_cons_of_length_pos (by simp only [List.length_cons] at hlen; omega)
    simp only [List.take_succ_cons, List.take_zero] at hres hset
    rw [hres, Option.bind_some] at hF
    split at hF
    · rename_i F2 i o he
      simp only [Prod.mk.injEq, Option.some.injEq, List.cons.injEq, and_true] at he
      obtain ⟨rfl,hfids,rfl,rfl⟩ := he
      cases hF
      have hfree : ∀ i∈[(0 : Fid),1], F.FIDT p i = none := fun i hm =>
        ((findFids_spec (F.FIDT p) 2 0).1 i (hfids ▸ hm)).1
      have hfresh : ∀ e∈[f,g], ∀ q i, F.FIDT q i≠some e := fun e he q i hs => by
        have hpos := refs_pos (n := n) hs
        rw [(hc.free e).mp (by
          simp only [List.mem_cons, List.not_mem_nil, or_false] at he ⊢
          tauto)] at hpos
        omega
      rw [hfids] at hi hset
      have hf : F1.FIDT p 0 = some f := hset (0,f) (by simp)
      have hg : F1.FIDT p 1 = some g := hset (1,g) (by simp)
      have hstdio : ∀ e∈[f,g], (setStream (setStream F1 f none .stdio) g none .stdio).stream e =
          (none,some .stdio) := fun e he => by
        rw [stream_setStream]
        by_cases heg : e = g
        · rw [if_pos heg]
        · have hef : e = f := by simpa [heg] using he
          rw [if_neg heg, stream_setStream, if_pos hef]
      have hother : ∀ q i e, F.FIDT q i = some e →
          (setStream (setStream F1 f none .stdio) g none .stdio).stream e = F.stream e :=
        fun q i e he => by
          have hne : ∀ e'∈[f,g], e≠e' := fun e' he' heq => hfresh e' he' q i (heq ▸ he)
          rw [stream_setStream, if_neg (hne g (by simp)), stream_setStream,
            if_neg (hne f (by simp)), hS.stream]
      refine ⟨?_,by rw [Files.streams, hfree 0 (by simp)]; rfl,
        by rw [Files.streams, hfree 1 (by simp)]; rfl⟩
      funext q
      by_cases hqp : q = p
      · subst hqp
        rw [Function.update_self]
        funext i
        change (F1.FIDT q i).map _ = _
        rw [StreamTable.console]
        by_cases h1 : i = 1
        · rw [h1, Function.update_self, hg, Option.map_some, hstdio g (by simp)]
        · rw [Function.update_of_ne h1]
          by_cases h0 : i = 0
          · rw [h0, Function.update_self, hf, Option.map_some, hstdio f (by simp)]
          · rw [Function.update_of_ne h0, hi i (by simp [h0, h1]), Files.streams]
            cases he : F.FIDT q i with
            | none => rfl
            | some e => rw [Option.map_some, Option.map_some, hother q i e he]
      · rw [Function.update_of_ne hqp]
        exact streams_congr (hq q hqp) fun i e he => hother q i e he
    · cases hF

theorem write_answers {fd : Int} {size fuel out : Nat} {accept : Nat → Bool} {r : Files × Int}
    (hr : sysWrite F p fd size fuel out accept = some r) :
    some r.2 = (F.streams p).write fd size fuel out accept := by
  unfold sysWrite at hr
  rw [getFcb_eq] at hr
  unfold StreamTable.write
  cases hfid : fidOf fd with
  | none =>
    rw [hfid] at hr
    cases hr
    rfl
  | some fid =>
    rw [hfid, Option.bind_some] at hr
    rw [Option.bind_some, Files.streams]
    cases hf : F.FIDT p fid with
    | none =>
      rw [hf] at hr
      cases hr
      rfl
    | some f =>
      rw [hf] at hr
      obtain ⟨ops,hops,hr⟩ := Option.bind_eq_some_iff.mp hr
      obtain ⟨count,hcount,hr⟩ := Option.bind_eq_some_iff.mp hr
      obtain ⟨x,-,rfl⟩ := Option.map_eq_some_iff.mp hr
      simp [Files.stream, hops, hcount]

end Files

section Calls
variable {s s' : State} {p : PcbRef} {L : Kin → List PcbRef} {fl : List PcbRef}

theorem finishRead_same {f : FcbRef} {count : Nat} {r : State × Option Int}
    (h : finishRead s f count = some r) :
    SameStreams s.files r.1.files ∧ r.2 = some (toInt count) := by
  obtain ⟨x,hx,rfl⟩ := Option.map_eq_some_iff.mp h
  exact ⟨sameStreams_decref hx,rfl⟩

theorem devread_answers {f : FcbRef} {obj : Option Nat} {size inp : Nat} {valid : Nat → Bool}
    {ops : FileOps} {r : State × Option Int} (h : devread s p f obj size inp valid ops = some r) :
    SameStreams s.files r.1.files ∧
      r.2 = StreamTable.deviceRead size inp valid (obj,some ops) := by
  cases ops with
  | nulldev => exact finishRead_same h
  | stdio => exact finishRead_same h
  | serial =>
    obtain ⟨port,rfl,hr⟩ := Option.bind_eq_some_iff.mp h
    rw [StreamTable.deviceRead]
    split at hr
    · rename_i hnone
      cases hr
      rw [hnone]
      exact ⟨.refl _,rfl⟩
    · rename_i count hcount
      rw [hcount]
      exact finishRead_same hr

theorem read_answers {fd : Int} {size inp : Nat} {valid : Nat → Bool} {r : State × Option Int}
    (hr : sysRead s p fd size inp valid = some r) :
    SameStreams s.files r.1.files ∧ r.2 = (s.files.streams p).read fd size inp valid := by
  unfold sysRead at hr
  rw [getFcb_eq] at hr
  unfold StreamTable.read
  cases hfid : fidOf fd with
  | none =>
    rw [hfid] at hr
    cases hr
    exact ⟨.refl _,rfl⟩
  | some fid =>
    rw [hfid, Option.bind_some] at hr
    rw [Option.bind_some, Files.streams]
    cases hf : s.files.FIDT p fid with
    | none =>
      rw [hf] at hr
      cases hr
      exact ⟨.refl _,rfl⟩
    | some f =>
      rw [hf] at hr
      obtain ⟨ops,hops,hr⟩ := Option.bind_eq_some_iff.mp hr
      obtain ⟨hS,hret⟩ := devread_answers hr
      refine ⟨(sameStreams_incref s.files f).trans hS,hret.trans ?_⟩
      rw [Option.map_some, Files.stream, hops]

def State.streams (s : State) : PcbRef → StreamTable := s.files.streams

/-- What a call returns at once; a Read that waits returns nothing yet. -/
def returned (s : State) : Label → Option Int
  | .exec p call argl args => some (sysExec s p call argl args).2
  | .read p fd size inp valid => (sysRead s p fd size inp valid).bind Prod.snd
  | .write p fd size fuel out accept => (sysWrite s.files p fd size fuel out accept).map Prod.snd
  | a => (fileCall s a).map Prod.snd

/-- A step seen in the tables alone: a call acts on the table of its process, Exec copies it,
Exit empties it, and nothing else does anything. -/
def Moves (ports : Nat) (ok : Bool) (V : PcbRef → StreamTable) (a : Label) (ret : Option Int)
    (V' : PcbRef → StreamTable) : Prop :=
  match a with
  | .exec p _ _ _ => ret = some NOPROC ∧ V' = V ∨
      ∃ r, r≠p ∧ V r = .empty ∧ ret = some (r.val : Int) ∧ V' = Function.update V r (V p)
  | .exit p _ => p = initPid ∧ V' = V ∨ V' = Function.update V p .empty
  | .resume p _ => V' = V ∨ p = initPid ∧ V' = Function.update V p .empty
  | .openNull p | .openTerminal p _ | .close p _ | .dup2 p _ _ =>
      ret = some ((V p).call ports ok a).2 ∧ V' = Function.update V p ((V p).call ports ok a).1
  | .console p => V p 0 = none ∧ V p 1 = none ∧ V' = Function.update V p (V p).console
  | .read p fd size inp valid => ret = (V p).read fd size inp valid ∧ V' = V
  | .write p fd size fuel out accept => ret = (V p).write fd size fuel out accept ∧ V' = V
  | .waitChild _ _ _ | .serialRx | .releaseTCB => V' = V

theorem exec_streams (h : Inv s L fl) (hp : s.thread p = some .user) (call : Bool) (argl : Nat)
    (args : Option (List UInt8)) :
    (sysExec s p call argl args).2 = NOPROC ∧ (sysExec s p call argl args).1.streams = s.streams ∨
    ∃ r, (s.procs.PT r).pstate = .FREE ∧ r≠p ∧ s.streams r = .empty ∧
      (sysExec s p call argl args).2 = r.val ∧
      (sysExec s p call argl args).1.streams = Function.update s.streams r (s.streams p) := by
  cases fl with
  | nil =>
    left
    simp [sysExec, h.table.acquire_nil, getPid, State.streams]
  | cons r fl =>
    right
    have hfree : (s.procs.PT r).pstate = .FREE := (h.table.free r).mp (by simp)
    have hle : ¬r.val≤1 := fun hle => (h.forest.root r hle).1 hfree
    have hpr : p≠r := by
      rintro rfl
      simp [h.alive p (by simp [hp])] at hfree
    have hnone := h.fids r (by simp [hfree])
    obtain ⟨-,hown,hnew⟩ := h.files.inheritFIDT hpr (inflight_le _) hnone
    obtain ⟨-,-,hFT⟩ := inheritFids_FT hpr (List.finRange MAX_FILEID) s.files
    have hS : SameStreams s.files (inheritFIDT s.files p r) := by
      intro f
      rw [show (inheritFIDT s.files p r).FT f = _ from hFT f]
      exact ⟨rfl,rfl⟩
    have hfiles : (sysExec s p call argl args).1.files = inheritFIDT s.files p r := by
      rw [sysExec_cons h.table]
      simp only [if_neg hle]
      cases call <;> rfl
    refine ⟨r,hfree,hpr.symm,?_,?_,?_⟩
    · funext i
      rw [State.streams, Files.streams, hnone i]
      rfl
    · simp [sysExec, h.table.acquire_cons, getPid]
    · rw [State.streams, hfiles]
      funext q
      by_cases hq : q = r
      · rw [hq, Function.update_self]
        funext i
        rw [State.streams, Files.streams, Files.streams, hnew i]
        cases s.files.FIDT p i with
        | none => rfl
        | some f => rw [Option.map_some, Option.map_some, hS.stream f]
      · rw [Function.update_of_ne hq]
        exact hS.streams (hown q hq)

theorem closeFIDT_streams (h : Inv s L fl) {files : Files} (hc : closeFIDT s.files p = some files) :
    files.streams = Function.update s.files.streams p .empty := by
  obtain ⟨F',hF',-,hown,hp⟩ := h.files.closeFIDT p
  obtain rfl : F' = files := Option.some.inj (hF'.symm.trans hc)
  have hS : SameStreams s.files F' := sameStreams_closeFids _ hc
  rw [hS.own hown]
  congr 1
  funext i
  rw [Files.streams, hp i]
  rfl

theorem exit_streams (h : Inv s L fl) {v : Int} (hs : sysExit s p v = some s') :
    p = initPid ∧ s'.streams = s.streams ∨ s'.streams = Function.update s.streams p .empty := by
  by_cases hp : p = initPid
  · obtain ⟨_,_,hf⟩ := sysExit_files hs
    rcases hf with hf|⟨files,hclose,hf⟩
    · exact .inl ⟨hp,by rw [State.streams, hf]; rfl⟩
    · right
      rw [State.streams, hf]
      exact closeFIDT_streams h hclose
  · rw [sysExit, if_neg hp] at hs
    obtain ⟨_,_,files,hclose,hf⟩ := exitTail_files hs
    right
    rw [State.streams, hf]
    exact closeFIDT_streams h hclose

theorem resume_streams (h : Inv s L fl) {valid : Nat → Bool} (hs : resume s p valid = some s') :
    s'.streams = s.streams ∨ (∃ v, s.thread p = some (.exitWait v)) ∧
      s'.streams = Function.update s.streams p .empty := by
  obtain ⟨t,ht,hfrom⟩ := Option.bind_eq_some_iff.mp hs
  have hback : SameFiles s (s.setThread p (some .user)) := ⟨rfl,rfl⟩
  have hsame : SameFiles s s' → s'.streams = s.streams := fun hf => by
    rw [State.streams, hf.files]
    rfl
  cases t with
  | user => cases hfrom
  | waitChild child status =>
    cases hfrom
    have hf := hback.trans (awaitChild_files (p := p) child status)
    exact .inl (hsame (hf.trans (returnWait_files p status _)))
  | waitAny status =>
    obtain ⟨r,hany,rfl⟩ := Option.map_eq_some_iff.mp hfrom
    have hf := hback.trans (awaitAny_files hany).1
    exact .inl (hsame (hf.trans (returnWait_files p status r)))
  | exitWait v =>
    obtain ⟨_,hf⟩ := resume_exit_files hs ht
    rcases hf with hf|⟨files,hclose,hf⟩
    · exact .inl (by rw [State.streams, hf]; rfl)
    · refine .inr ⟨⟨v,ht⟩,?_⟩
      rw [State.streams, hf]
      exact closeFIDT_streams h hclose
  | reading f port size =>
    obtain ⟨r,hread,rfl⟩ := Option.map_eq_some_iff.mp hfrom
    obtain ⟨hS,_⟩ := devread_answers hread
    obtain ⟨hT,_⟩ := devread_files hread
    left
    funext q
    exact hS.streams (congrFun hT q)

theorem boot_streams (ports argl : Nat) (args : Option (List UInt8)) :
    (boot ports argl args).streams = fun _ => .empty := by
  obtain ⟨P,fl,hboot,-⟩ := boot_eq ports argl args
  rw [State.streams, hboot, booted_files]
  funext p i
  rw [Files.streams, initializeFiles_FIDT]
  rfl

theorem SameFiles.streams (h : SameFiles s s') : s'.streams = s.streams := by
  rw [State.streams, h.files]
  rfl

theorem step_moves (h : Inv s L fl) {a : Label} (ha : Enabled s a) (hs : step s a = some s') :
    Moves s.serialPorts (nextFCB s.files).isSome s.streams a (returned s a) s'.streams := by
  -- the calls that are one operation on the files
  have hcall : ∀ {r : Option (Files × Int)} {ret : Int} {V : PcbRef → StreamTable},
      s.withFiles r = some s' → (∀ x, r = some x → x.1.streams = V ∧ x.2 = ret) →
      r.map Prod.snd = some ret ∧ s'.streams = V := by
    intro r ret V hr hx
    obtain ⟨x,hx',rfl⟩ := Option.map_eq_some_iff.mp hr
    obtain ⟨hV,hret⟩ := hx x hx'
    rw [hx', Option.map_some, hret]
    exact ⟨rfl,hV⟩
  cases a with
  | exec p call argl args =>
    cases hs
    rcases exec_streams h ha call argl args with ⟨hret,hV⟩|⟨r,-,hr,he,hret,hV⟩
    · exact .inl ⟨congrArg some hret,hV⟩
    · exact .inr ⟨r,hr,he,congrArg some hret,hV⟩
  | exit p v => exact exit_streams h hs
  | waitChild p cpid status =>
    obtain ⟨r,hr,rfl⟩ := Option.map_eq_some_iff.mp hs
    have h1 : SameFiles s r.1 := by
      unfold sysWaitChild at hr
      split at hr
      · cases hr
        exact waitForSpecificChild_files cpid status
      · exact (waitForAnyChild_files hr).1
    exact (h1.trans (returnWait_files p status r)).streams
  | openNull p => exact hcall hs fun x hx => open_streams h.files hx
  | openTerminal p termno => exact hcall hs fun x hx => open_streams h.files hx
  | console p =>
    obtain ⟨files,hfiles,rfl⟩ := Option.map_eq_some_iff.mp hs
    obtain ⟨hV,h0,h1⟩ := console_streams h.files hfiles
    exact ⟨h0,h1,hV⟩
  | close p fd => exact hcall hs fun x hx => close_streams h.files hx
  | dup2 p oldfd newfd => exact hcall hs fun x hx => dup2_streams h.files (inflight_le _) hx
  | read p fd size inp valid =>
    obtain ⟨r,hr,rfl⟩ := Option.map_eq_some_iff.mp hs
    obtain ⟨hS,hret⟩ := read_answers hr
    obtain ⟨hT,_⟩ := sysRead_files hr
    refine ⟨?_,?_⟩
    · rw [returned, hr]
      exact hret
    · funext q
      exact hS.streams (congrFun hT q)
  | write p fd size fuel out accept =>
    obtain ⟨r,hr,rfl⟩ := Option.map_eq_some_iff.mp hs
    refine ⟨?_,?_⟩
    · rw [returned, hr]
      exact write_answers hr
    · funext q
      exact (sameStreams_write hr).streams (congrFun (sysWrite_FIDT hr) q)
  | resume p valid =>
    rcases resume_streams h hs with hV|⟨⟨v,hv⟩,hV⟩
    · exact .inl hV
    · exact .inr ⟨(h.waiting p _ hv).1,hV⟩
  | serialRx =>
    cases hs
    rfl
  | releaseTCB =>
    cases hs
    rfl

/-- The table of a process that is ALIVE changes by its own calls alone. -/
theorem step_private (h : Inv s L fl) {a : Label} (ha : Enabled s a) (hs : step s a = some s')
    (hp : (s.procs.PT p).pstate = .ALIVE) (hne : a.proc≠some p) : s'.streams p = s.streams p := by
  have hmove := step_moves h ha hs
  have hother : ∀ {q V V'}, a.proc = some q → V' = Function.update s.streams q V →
      V' p = s.streams p := by
    intro q V V' hq hV
    have hpq : p≠q := fun hpq => hne (hpq ▸ hq)
    rw [hV, Function.update_of_ne hpq]
  cases a with
  | exec q call argl args =>
    cases hs
    rcases exec_streams h ha call argl args with ⟨-,hV⟩|⟨r,hr,-,-,-,hV⟩
    · rw [hV]
    · have hpr : p≠r := by
        rintro rfl
        rw [hr] at hp
        cases hp
      rw [hV, Function.update_of_ne hpr]
  | exit q v =>
    rcases hmove with ⟨-,hV⟩|hV
    · rw [hV]
    · exact hother rfl hV
  | resume q valid =>
    rcases hmove with hV|⟨-,hV⟩
    · rw [hV]
    · exact hother rfl hV
  | openNull q => exact hother rfl hmove.2
  | openTerminal q termno => exact hother rfl hmove.2
  | close q fd => exact hother rfl hmove.2
  | dup2 q oldfd newfd => exact hother rfl hmove.2
  | console q => exact hother rfl hmove.2.2
  | read q fd size inp valid => rw [hmove.2]
  | write q fd size fuel out accept => rw [hmove.2]
  | waitChild q cpid status => rw [show s'.streams = s.streams from hmove]
  | serialRx => rw [show s'.streams = s.streams from hmove]
  | releaseTCB => rw [show s'.streams = s.streams from hmove]

end Calls
end TinyOS.Kernel
