import TinyOS.Kernel.Syscalls
import Mathlib.Data.Nat.Find

/-! What sys_Read and sys_Write transfer: the loops of kernel_dev.c with the bytes that
they move, over every pattern of polls. -/
namespace TinyOS.Kernel

section Loop
variable {α : Type*}

/-- The loop of the serial driver: poll n c is what the n-th poll of the port transfers, c
bytes being done. After a refusal before the first byte the thread waits and polls again. -/
def serialLoop (poll : Nat → Nat → Option α) (size : Nat) : Nat → Nat → List α → Option (List α)
  | 0, _, _ => none
  | fuel+1, n, done =>
    if done.length < size then
      match poll n done.length with
      | some b => serialLoop poll size fuel (n+1) (done++[b])
      | none => if done.length = 0 then serialLoop poll size fuel (n+1) done else some done
    else some done

def Ready (ready : Nat → Bool) (m : Nat) : Prop :=
  ∃ i, (∀ j < i, ready j = false) ∧ ∀ k < m, ready (i+k) = true

variable {poll : Nat → Nat → Option α} {ready : Nat → Bool} {size : Nat}

theorem exists_first (h : ∀ n, ∃ i, n ≤ i ∧ ready i = true) :
    ∃ i, ready i = true ∧ ∀ j < i, ready j = false := by
  obtain ⟨i,-,hi⟩ := h 0
  have hex : ∃ i, ready i = true := ⟨i,hi⟩
  exact ⟨Nat.find hex,Nat.find_spec hex,fun j hj => by simpa using Nat.find_min hex hj⟩

theorem exists_run (ready : Nat → Bool) (i size : Nat) :
    ∃ m, m ≤ size ∧ (∀ k < m, ready (i+k) = true) ∧ (m = size ∨ ready (i+m) = false) := by
  induction size with
  | zero => exact ⟨0,Nat.le_refl 0,by simp,.inl rfl⟩
  | succ size ih =>
    obtain ⟨m,hm,hrun,hend⟩ := ih
    cases hr : ready (i+m) with
    | false => exact ⟨m,by omega,hrun,.inr hr⟩
    | true =>
      obtain rfl : m = size := hend.resolve_right (by simp [hr])
      refine ⟨m+1,Nat.le_refl _,fun k hk => ?_,.inl rfl⟩
      by_cases hkm : k = m
      · rw [hkm, hr]
      · exact hrun k (by omega)

theorem serialLoop_wait (hpoll : ∀ n c, c < size → (poll n c).isSome = ready n) (hsize : 0 < size)
    (fuel : Nat) {n i : Nat} (hn : n ≤ i) (hwait : ∀ j, n≤j → j < i → ready j = false) :
    serialLoop poll size (fuel+(i-n)) n [] = serialLoop poll size fuel i [] := by
  obtain ⟨d,rfl⟩ := Nat.exists_eq_add_of_le hn
  rw [Nat.add_sub_cancel_left]
  induction d generalizing n with
  | zero => rfl
  | succ d ih =>
    have hnone : poll n ([] : List α).length = none := by
      have := hpoll n 0 hsize
      rw [hwait n (Nat.le_refl n) (by omega)] at this
      simpa using this
    have hnext := ih (n := n+1) (by omega) (fun j hj hlt => hwait j (by omega) (by omega))
    rw [← Nat.add_assoc fuel d 1, serialLoop, if_pos (by simpa using hsize), hnone]
    simp only [List.length_nil, if_true, hnext]
    congr 1
    omega

theorem serialLoop_run (hpoll : ∀ n c, c < size → (poll n c).isSome = ready n) {m n : Nat}
    (done : List α) (hm : done.length+m ≤ size) (hrun : ∀ k < m, ready (n+k) = true)
    (hend : done.length+m = size ∨ ready (n+m) = false ∧ 0 < done.length+m)
    (hdone : ∀ k (hk : k < done.length), ∃ n, poll n k = some done[k]) :
    ∃ done', (∀ fuel, m < fuel → serialLoop poll size fuel n done = some done') ∧
      done'.length = done.length+m ∧ ∀ k (hk : k < done'.length), ∃ n, poll n k = some done'[k] := by
  induction m generalizing n done with
  | zero =>
    refine ⟨done,fun fuel hfuel => ?_,rfl,hdone⟩
    obtain ⟨fuel,rfl⟩ := Nat.exists_eq_succ_of_ne_zero (Nat.ne_of_gt hfuel)
    rw [serialLoop]
    by_cases hlt : done.length < size
    · obtain ⟨hno,hpos⟩ := hend.resolve_left (by omega)
      have hnone : poll n done.length = none := by
        have := hpoll n done.length hlt
        rw [← Nat.add_zero n, hno] at this
        simpa using this
      rw [if_pos hlt, hnone]
      exact if_neg (by omega)
    · rw [if_neg hlt]
  | succ m ih =>
    have hlt : done.length < size := by omega
    obtain ⟨b,hb⟩ : ∃ b, poll n done.length = some b := Option.isSome_iff_exists.mp (by
      rw [hpoll n done.length hlt]
      exact hrun 0 (by omega))
    have hlen : (done++[b]).length = done.length+1 := by simp
    have hrun' : ∀ k < m, ready (n+1+k) = true := by
      intro k hk
      have := hrun (k+1) (by omega)
      rwa [Nat.add_comm k 1, ← Nat.add_assoc] at this
    have hend' : (done++[b]).length+m = size ∨
        ready (n+1+m) = false ∧ 0 < (done++[b]).length+m := by
      rw [hlen, Nat.add_assoc, Nat.add_assoc, Nat.add_comm 1 m]
      exact hend
    have hdone' : ∀ k (hk : k < (done++[b]).length), ∃ n, poll n k = some (done++[b])[k] := by
      intro k hk
      by_cases hkl : k < done.length
      · rw [List.getElem_append_left hkl]
        exact hdone k hkl
      · obtain rfl : k = done.length := by omega
        exact ⟨n,by simpa using hb⟩
    obtain ⟨done',he,hl,hgood⟩ := ih _ (by omega) hrun' hend' hdone'
    refine ⟨done',fun fuel hfuel => ?_,by omega,hgood⟩
    obtain ⟨fuel,rfl⟩ := Nat.exists_eq_succ_of_ne_zero (by omega : fuel≠0)
    rw [serialLoop, if_pos hlt, hb]
    exact he fuel (by omega)

/-- With enough fuel the loop ends, with the bytes of the first run of accepted polls. -/
theorem serialLoop_eq (hpoll : ∀ n c, c < size → (poll n c).isSome = ready n)
    (hready : ∀ n, ∃ i, n ≤ i ∧ ready i = true) : ∃ done N,
      (∀ fuel, N≤fuel → serialLoop poll size fuel 0 [] = some done) ∧ done.length ≤ size ∧
      (∀ m, m ≤ size → (m≤done.length ↔ Ready ready m)) ∧
      ∀ k (hk : k < done.length), ∃ n, poll n k = some done[k] := by
  obtain ⟨i,hi,hfirst⟩ := exists_first hready
  obtain ⟨m,hm,hrun,hend⟩ := exists_run ready i size
  by_cases hsize : 0 < size
  · have hpos : 0 < m := by
      by_contra h0
      obtain rfl : m = 0 := by omega
      rcases hend with h | h
      · omega
      · rw [Nat.add_zero, hi] at h
        cases h
    obtain ⟨done,he,hl,hdone⟩ := serialLoop_run hpoll [] (by simpa using hm) hrun
      (by simpa [hpos] using hend) (by simp)
    rw [List.length_nil, Nat.zero_add] at hl
    refine ⟨done,m+1+i,?_,by omega,?_,hdone⟩
    · intro fuel hfuel
      obtain ⟨d,rfl⟩ := Nat.exists_eq_add_of_le hfuel
      have hw := serialLoop_wait hpoll hsize (m+1+d) (Nat.zero_le i)
        (fun j _ hj => hfirst j hj)
      rw [show m+1+i+d = m+1+d+(i-0) by omega, hw]
      exact he _ (by omega)
    · intro c hc
      rw [hl]
      refine ⟨fun h => ⟨i,hfirst,fun k hk => hrun k (by omega)⟩,?_⟩
      rintro ⟨i',hi',hk⟩
      by_contra hlt
      have h0 := hk 0 (by omega)
      obtain rfl : i' = i := by
        rcases Nat.lt_trichotomy i' i with h | h | h
        · rw [Nat.add_zero, hfirst i' h] at h0
          cases h0
        · exact h
        · rw [hi' i h] at hi
          cases hi
      have hm' := hk m (by omega)
      rw [hend.resolve_left (by omega)] at hm'
      cases hm'
  · refine ⟨[],1,?_,by simp,?_,by simp⟩
    · intro fuel hfuel
      obtain ⟨fuel,rfl⟩ := Nat.exists_eq_succ_of_ne_zero (by omega : fuel≠0)
      rw [serialLoop, if_neg (by simpa using hsize)]
    · intro c hc
      obtain rfl : c = 0 := by omega
      exact ⟨fun _ => ⟨0,by simp,by simp⟩,fun _ => by simp⟩

end Loop

def nulldevRead (size : Nat) : List UInt8 := List.replicate size 0

def nulldevWrite (buf : List UInt8) : List UInt8 := buf

def serialReadBytes (polls : Nat → Option UInt8) (size fuel : Nat) : Option (List UInt8) :=
  serialLoop (fun n _ => polls n) size fuel 0 []

def serialWriteBytes (accept : Nat → Bool) (buf : List UInt8) (fuel : Nat) :
    Option (List UInt8) :=
  serialLoop (fun n count => if accept n then buf[count]? else none) buf.length fuel 0 []

/-- What the Read method puts into the buffer; inp is the input of the C library. -/
def FileOps.readBytes (size fuel : Nat) (inp : List UInt8) (polls : Nat → Option UInt8) :
    FileOps → Option (List UInt8)
  | .nulldev => some (nulldevRead size)
  | .stdio => some (inp.take size)
  | .serial => serialReadBytes polls size fuel

/-- What the Write method takes from the buffer, to transmit it if the device does. -/
def FileOps.writeBytes (buf : List UInt8) (fuel out : Nat) (accept : Nat → Bool) :
    FileOps → Option (List UInt8)
  | .nulldev => some (nulldevWrite buf)
  | .stdio => some (buf.take out)
  | .serial => serialWriteBytes accept buf fuel

def sysReadBytes (F : Files) (p : PcbRef) (fd : Int) (size fuel : Nat) (inp : List UInt8)
    (polls : Nat → Option UInt8) : Option (Int × List UInt8) :=
  match getFcb F p fd with
  | none => some (-1,[])
  | some fcb => (F.FT fcb).streamfunc.bind fun ops =>
    (ops.readBytes size fuel inp polls).map fun bytes => (toInt bytes.length,bytes)

def sysWriteBytes (F : Files) (p : PcbRef) (fd : Int) (buf : List UInt8) (fuel out : Nat)
    (accept : Nat → Bool) : Option (Files × Int × List UInt8) :=
  match getFcb F p fd with
  | none => some (F,-1,[])
  | some fcb => (F.FT fcb).streamfunc.bind fun ops =>
    (ops.writeBytes buf fuel out accept).bind fun bytes =>
      (decref (incref F fcb) fcb).map fun r => (r.1,toInt bytes.length,bytes)

theorem serialLoop_write (accept : Nat → Bool) (buf : List UInt8) (fuel n : Nat)
    (done : List UInt8) :
    (serialLoop (fun n count => if accept n then buf[count]? else none) buf.length fuel n
      done).map List.length = serialWrite accept buf.length fuel n done.length := by
  induction fuel generalizing n done with
  | zero => rfl
  | succ fuel ih =>
    rw [serialLoop, serialWrite]
    by_cases hlt : done.length < buf.length
    · rw [if_pos hlt, if_pos hlt]
      cases hacc : accept n with
      | true =>
        have := ih (n+1) (done++[buf[done.length]])
        simpa [hlt] using this
      | false =>
        simp only [Bool.false_eq_true, if_false]
        split
        · exact ih (n+1) done
        · rfl
    · rw [if_neg hlt, if_neg hlt]
      rfl

theorem sysWriteBytes_result (F : Files) (p : PcbRef) (fd : Int) (buf : List UInt8)
    (fuel out : Nat) (accept : Nat → Bool) :
    (sysWriteBytes F p fd buf fuel out accept).map (fun r => (r.1,r.2.1)) =
      sysWrite F p fd buf.length fuel out accept := by
  have hcount : ∀ ops : FileOps, (ops.writeBytes buf fuel out accept).map List.length =
      ops.write buf.length fuel out accept := by
    intro ops
    cases ops with
    | nulldev => rfl
    | stdio => simp [FileOps.writeBytes, FileOps.write]
    | serial => exact serialLoop_write accept buf fuel 0 []
  rw [sysWriteBytes, sysWrite]
  cases getFcb F p fd with
  | none => rfl
  | some fcb =>
    simp only
    cases (F.FT fcb).streamfunc with
    | none => rfl
    | some ops =>
      simp only [Option.bind_some, ← hcount ops]
      cases ops.writeBytes buf fuel out accept with
      | none => rfl
      | some bytes => simp only [Option.bind_some, Option.map_some, Option.map_map,
          Function.comp_def]

theorem serialLoop_read (polls : Nat → Option UInt8) (size fuel : Nat) (done : List UInt8)
    (hfuel : size-done.length < fuel) (hfirst : done = [] → 0 < size → (polls 0).isSome) :
    ∃ bytes, serialLoop (fun n _ => polls n) size fuel done.length done = some bytes ∧
      serialRead (fun n => (polls n).isSome) size fuel done.length = some bytes.length := by
  induction fuel generalizing done with
  | zero => omega
  | succ fuel ih =>
    rw [serialLoop, serialRead]
    by_cases hlt : done.length < size
    · rw [if_pos hlt, if_pos hlt]
      cases hp : polls done.length with
      | some b =>
        have hlen : (done++[b]).length = done.length+1 := by simp
        have hnext := ih (done++[b]) (by omega) (by simp)
        rw [hlen] at hnext
        simpa using hnext
      | none =>
        have hne : done.length≠0 := by
          intro h0
          have hnil := List.length_eq_zero_iff.mp h0
          rw [hnil, List.length_nil] at hp
          simpa [hp] using hfirst hnil (by omega)
        exact ⟨done,by simp [hne],by simp [hne]⟩
    · rw [if_neg hlt, if_neg hlt]
      exact ⟨done,rfl,rfl⟩

theorem decref_incref {F : Files} {fcb : FcbRef} {ops : FileOps}
    (hops : (F.FT fcb).streamfunc = some ops) : ∃ r, decref (incref F fcb) fcb = some r := by
  by_cases h : ((((incref F fcb).modFCB fcb fun b => { b with refcount := b.refcount-1 }).FT
      fcb).refcount = 0)
  · rw [decref, if_pos h]
    simp [incref, Files.modFCB, hops]
  · rw [decref, if_neg h]
    exact ⟨_,rfl⟩

theorem finishRead_bytes {s : State} {fcb : FcbRef} {ops : FileOps}
    (hops : (s.files.FT fcb).streamfunc = some ops) (count : Nat) :
    (finishRead { s with files := incref s.files fcb } fcb count).bind Prod.snd =
      some (toInt count) := by
  obtain ⟨r,hr⟩ := decref_incref hops
  simp [finishRead, hr]

theorem devread_bytes {s : State} {p : PcbRef} {fcb : FcbRef} {ops : FileOps}
    (hops : (s.files.FT fcb).streamfunc = some ops) (port size inp : Nat)
    {polls : Nat → Option UInt8} (hfirst : 0 < size → (polls 0).isSome) :
    (devread { s with files := incref s.files fcb } p fcb (some port) size inp
        (fun n => (polls n).isSome) .serial).bind Prod.snd =
      (serialReadBytes polls size (size+1)).map fun bytes => toInt bytes.length := by
  obtain ⟨bytes,hloop,hcount⟩ := serialLoop_read polls size (size+1) [] (by simp)
    fun _ => hfirst
  rw [List.length_nil] at hloop hcount
  simp only [devread, Option.bind_some, hcount, serialReadBytes, hloop, Option.map_some,
    finishRead_bytes hops]

theorem serialReadBytes_wait {polls : Nat → Option UInt8} {size : Nat} (hsize : 0 < size)
    (hnone : polls 0 = none) (fuel : Nat) :
    serialReadBytes polls size (fuel+1) = serialReadBytes (fun n => polls (n+1)) size fuel := by
  have hshift : ∀ (fuel n : Nat) (done : List UInt8),
      serialLoop (fun n _ => polls n) size fuel (n+1) done =
        serialLoop (fun n _ => polls (n+1)) size fuel n done := by
    intro fuel
    induction fuel with
    | zero => exact fun _ _ => rfl
    | succ fuel ih =>
      intro n done
      simp only [serialLoop, ih]
  rw [serialReadBytes, serialLoop, if_pos (by simpa using hsize), hnone]
  exact hshift fuel 0 []

theorem sysReadBytes_result {s : State} {p : PcbRef} {fd : Int} {fcb : FcbRef} {ops : FileOps}
    (hfcb : getFcb s.files p fd = some fcb) (hops : (s.files.FT fcb).streamfunc = some ops)
    (hobj : ops = .serial → (s.files.FT fcb).streamobj≠none) (size : Nat) (inp : List UInt8)
    {polls : Nat → Option UInt8} (hfirst : 0 < size → (polls 0).isSome) :
    (sysRead s p fd size inp.length fun n => (polls n).isSome).bind Prod.snd =
      (sysReadBytes s.files p fd size (size+1) inp polls).map Prod.fst := by
  rw [sysRead, sysReadBytes, hfcb]
  simp only [hops, Option.bind_some]
  cases ops with
  | nulldev =>
    rw [devread, finishRead_bytes hops]
    simp [FileOps.readBytes, nulldevRead]
  | stdio =>
    rw [devread, finishRead_bytes hops]
    simp [FileOps.readBytes, Nat.min_comm]
  | serial =>
    obtain ⟨port,hport⟩ := Option.ne_none_iff_exists'.mp (hobj rfl)
    rw [hport, devread_bytes hops port size inp.length hfirst]
    simp [FileOps.readBytes, Option.map_map, Function.comp_def]

theorem toInt_eq_iff {n : Nat} : toInt n = n ↔ n≤INT_MAX := by
  refine ⟨fun he => ?_,toInt_eq⟩
  have hlt := Int.bmod_lt (x := n) (m := 4294967296) (by omega)
  rw [show Int.bmod n 4294967296 = n from he] at hlt
  simp only [INT_MAX]
  omega

/-- The result of Read is a count: no 2^31 bytes arrive in one run. -/
def ReadFits (size : Nat) (valid : Nat → Bool) : FileOps → Prop
  | .serial => INT_MAX < size → ¬Ready valid (INT_MAX+1)
  | _ => size≤INT_MAX

/-- The result of Write is a count, and the port, once it accepts, accepts to the end. -/
def WriteFits (size : Nat) (accept : Nat → Bool) : FileOps → Prop
  | .serial => size≤INT_MAX ∧ Ready accept size
  | _ => size≤INT_MAX

def Exact (ret : Int) (bytes : List UInt8) : Prop := ret = bytes.length ∧ 0 ≤ ret

theorem exact_iff (bytes : List UInt8) : Exact (toInt bytes.length) bytes ↔ bytes.length≤INT_MAX := by
  rw [← toInt_eq_iff]
  exact ⟨fun h => h.1,fun h => ⟨h,by omega⟩⟩

theorem readBytes_exact {ops : FileOps} (hdev : ops≠.stdio) (size : Nat) (inp : List UInt8)
    {polls : Nat → Option UInt8} (hpolls : ∀ n, ∃ i, n ≤ i ∧ (polls i).isSome) :
    ∃ bytes N, (∀ fuel, N≤fuel → ops.readBytes size fuel inp polls = some bytes) ∧
      (Exact (toInt bytes.length) bytes ↔ ReadFits size (fun n => (polls n).isSome) ops) := by
  cases ops with
  | nulldev =>
    refine ⟨nulldevRead size,0,fun _ _ => rfl,?_⟩
    rw [exact_iff, nulldevRead, List.length_replicate]
    rfl
  | stdio => exact absurd rfl hdev
  | serial =>
    have hpoll : ∀ n c, c < size → (polls n).isSome = (polls n).isSome := fun _ _ _ => rfl
    obtain ⟨bytes,N,he,hle,hrun,-⟩ := serialLoop_eq hpoll hpolls
    refine ⟨bytes,N,he,?_⟩
    rw [exact_iff, ReadFits]
    constructor
    · intro hmax hlt hready
      have := (hrun (INT_MAX+1) hlt).mpr hready
      omega
    · intro h
      by_contra hgt
      exact h (by omega) ((hrun (INT_MAX+1) (by omega)).mp (by omega))

theorem writeBytes_exact {ops : FileOps} (hdev : ops≠.stdio) (buf : List UInt8) (out : Nat)
    {accept : Nat → Bool} (haccept : ∀ n, ∃ i, n ≤ i ∧ accept i = true) :
    ∃ bytes N, (∀ fuel, N≤fuel → ops.writeBytes buf fuel out accept = some bytes) ∧
      (Exact (toInt bytes.length) bytes ∧
        (ops = .serial → bytes = buf ∧ toInt bytes.length = buf.length) ↔
          WriteFits buf.length accept ops) := by
  cases ops with
  | nulldev =>
    refine ⟨nulldevWrite buf,0,fun _ _ => rfl,?_⟩
    rw [exact_iff]
    exact ⟨fun h => h.1,fun h => ⟨h,nofun⟩⟩
  | stdio => exact absurd rfl hdev
  | serial =>
    have hpoll : ∀ n c, c < buf.length →
        (if accept n then buf[c]? else none).isSome = accept n := by
      intro n c hc
      cases hacc : accept n <;> simp [hc]
    obtain ⟨bytes,N,he,hle,hrun,hbytes⟩ := serialLoop_eq hpoll haccept
    have hfull : bytes.length = buf.length → bytes = buf := by
      intro hlen
      refine List.ext_getElem hlen fun k hk hk' => ?_
      obtain ⟨n,hn⟩ := hbytes k hk
      split at hn
      · rw [List.getElem?_eq_getElem hk'] at hn
        exact (Option.some.inj hn).symm
      · cases hn
    refine ⟨bytes,N,he,?_⟩
    rw [exact_iff, WriteFits]
    constructor
    · rintro ⟨hmax,hser⟩
      obtain ⟨rfl,-⟩ := hser rfl
      exact ⟨hmax,(hrun _ (Nat.le_refl _)).mp (Nat.le_refl _)⟩
    · rintro ⟨hmax,hready⟩
      have hlen := Nat.le_antisymm hle ((hrun _ (Nat.le_refl _)).mpr hready)
      exact ⟨by omega,fun _ => ⟨hfull hlen,by rw [hlen]; exact toInt_eq hmax⟩⟩

/-- Read and Write of the null device and of a terminal return what they transfer, and a
terminal all of it, exactly if the count is an int and the port does not refuse a byte
in the middle. -/
theorem transfer_result {F : Files} {p : PcbRef} {fd : Int} {fcb : FcbRef} {ops : FileOps}
    (hfcb : getFcb F p fd = some fcb) (hops : (F.FT fcb).streamfunc = some ops)
    (hdev : ops≠.stdio) (size : Nat) (buf inp : List UInt8) (out : Nat)
    {polls : Nat → Option UInt8} {accept : Nat → Bool}
    (hpolls : ∀ n, ∃ i, n ≤ i ∧ (polls i).isSome) (haccept : ∀ n, ∃ i, n ≤ i ∧ accept i = true) :
    (∃ ret bytes N, (∀ fuel, N≤fuel →
        sysReadBytes F p fd size fuel inp polls = some (ret,bytes)) ∧
      (Exact ret bytes ↔ ReadFits size (fun n => (polls n).isSome) ops)) ∧
    ∃ F' ret bytes N, (∀ fuel, N≤fuel →
        sysWriteBytes F p fd buf fuel out accept = some (F',ret,bytes)) ∧
      (Exact ret bytes ∧ (ops = .serial → bytes = buf ∧ ret = buf.length) ↔
        WriteFits buf.length accept ops) := by
  constructor
  · obtain ⟨bytes,N,he,hiff⟩ := readBytes_exact hdev size inp hpolls
    refine ⟨toInt bytes.length,bytes,N,fun fuel hfuel => ?_,hiff⟩
    simp only [sysReadBytes, hfcb, hops, Option.bind_some, he fuel hfuel, Option.map_some]
  · obtain ⟨bytes,N,he,hiff⟩ := writeBytes_exact hdev buf out haccept
    obtain ⟨r,hr⟩ := decref_incref hops
    refine ⟨r.1,toInt bytes.length,bytes,N,fun fuel hfuel => ?_,hiff⟩
    simp only [sysWriteBytes, hfcb, hops, Option.bind_some, he fuel hfuel, hr, Option.map_some]

def oneStream (ops : FileOps) : Files :=
  { zeroFiles with FIDT _ _ := some 0, FT _ := ⟨1,some 0,some ops⟩ }

theorem transfer_result_hi :
    (∃ ret bytes N, (∀ fuel, N≤fuel →
        sysReadBytes (oneStream .serial) 0 3 2 fuel [] (fun n => if n = 1 then none else some 104) =
          some (ret,bytes)) ∧ Exact ret bytes) ∧
    ∃ F' ret bytes N, (∀ fuel, N≤fuel →
        sysWriteBytes (oneStream .serial) 0 3 [104,105] fuel 0 (fun n => decide (2≤n)) =
          some (F',ret,bytes)) ∧ bytes = [104,105] ∧ ret = 2 := by
  have hfcb : getFcb (oneStream .serial) 0 3 = some 0 := rfl
  have hpolls : ∀ n, ∃ i, n ≤ i ∧ (if i = 1 then none else some (104 : UInt8)).isSome :=
    fun n => ⟨n+2,by omega,by simp⟩
  have haccept : ∀ n, ∃ i, n ≤ i ∧ decide (2 ≤ i) = true := fun n => ⟨n+2,by omega,by simp⟩
  obtain ⟨⟨ret,bytes,N,he,hiff⟩,F',ret',bytes',N',he',hiff'⟩ :=
    transfer_result hfcb rfl nofun 2 [104,105] [] 0 hpolls haccept
  refine ⟨⟨ret,bytes,N,he,hiff.mpr fun h => ?_⟩,F',ret',bytes',N',he',(hiff'.mpr ?_).2 rfl⟩
  · rw [INT_MAX] at h
    omega
  · exact ⟨by rw [INT_MAX]; simp,2,fun j hj => by simpa using hj,fun k _ => by simp⟩

/-- A terminal that refuses the second byte once; and 2^31 bytes for the null device. -/
theorem transfer_result_stall : (∀ n, ∃ i, n ≤ i ∧ decide (i≠1) = true) ∧
    (sysWriteBytes (oneStream .serial) 0 3 [104,105] 3 0 fun n => decide (n≠1)).map Prod.snd =
      some (1,[104]) ∧
    (sysWrite (oneStream .nulldev) 0 3 (2^31) 0 0 fun _ => true).map Prod.snd = some (-2^31) :=
  ⟨fun n => ⟨n+2,by omega,by simp⟩,by decide,by decide⟩

end TinyOS.Kernel
