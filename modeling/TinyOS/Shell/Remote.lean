import TinyOS.Kernel.Execute
import TinyOS.Lib.Transition

/-! The command of RemoteClient on its way to rsrv_client: [int argl, void* args] through a
socket, which takes and gives bytes in pieces of any size. -/
namespace TinyOS.Shell.Remote
open Argv Kernel Transition

abbrev sizeofInt : Nat := 4

def toInt (n : Nat) : Int :=
  if n%4294967296 < 2147483648 then (n%4294967296 : Nat) else (n%4294967296 : Nat)-4294967296

def intBytes (x : Int) : List UInt8 := pointerBytes sizeofInt (x%4294967296).toNat

def intValue (bs : List UInt8) : Int := toInt (pointerValue bs)

/-- What RemoteClient is called with, and the socket of the server. -/
structure Input where
  mem : Memory
  argv : List Nat
  sock : Nat

inductive Client where
  | start
  /-- Insufficient arguments. -/
  | refused
  /-- In send_message, with count bytes written. -/
  | sendLen (argl : Int) (args : List UInt8) (count : Nat)
  | sendArgs (args : List UInt8) (count : Nat)
  | shutDown
  /-- The write side is shut down; the answer is read. -/
  | display
  /-- char args[argl] has no room for the message. -/
  | fault

inductive Server where
  /-- In recv_message, with the bytes read so far. -/
  | recvLen (buf : List UInt8)
  /-- assert(argl>0 && argl <= 2048) -/
  | check (argl : Int)
  | recvArgs (argl : Nat) (buf : List UInt8)
  | unpack (args : List UInt8)
  | execute (argv : List (List UInt8))
  | aborting
  | assertFailed
  | fault

structure State where
  client : Client
  server : Server
  /-- Written and not yet read. -/
  stream : List UInt8
  /-- The client has shut down its side. -/
  closed : Bool

/-- The message is made up: argl is an int, and args has argl bytes. -/
def makeMessage (x : Input) : Client :=
  match argvlen x.mem x.argv.tail with
  | none => .fault
  | some l =>
    if 0 < toInt l then
      match argvpack x.mem (List.replicate (toInt l).toNat 0) 0 x.argv.tail with
      | none => .fault
      | some (args,_) => .sendLen (toInt l) args 0
    else .fault

def asBytes (s : String) : List UInt8 := s.toList.map fun c => UInt8.ofNat c.toNat

/-- The argument vector of rsrv_process; a string is given by its bytes. -/
def processArgs (x : Input) (strs : List (List UInt8)) : List (List UInt8) :=
  asBytes "rsrv_process"::asBytes (toString x.sock)::strs

def unpackMessage (x : Input) (args : List UInt8) : Server :=
  match argscount args.length args with
  | none => .fault
  | some argc =>
    match argvunpack argc args with
    | none => .fault
    | some (ps,_) => .execute (processArgs x (ps.map cString))

/-- What the client does between its calls of Write. -/
def State.clientStep (x : Input) (s : State) : Option State :=
  match s.client with
  | .start =>
    some { s with client := if x.argv.length ≤ 1 then .refused else makeMessage x }
  | .sendLen _ args count =>
    if count = sizeofInt then some { s with client := .sendArgs args 0 } else none
  | .sendArgs args count =>
    if count = args.length then some { s with client := .shutDown } else none
  | .shutDown => some { s with client := .display, closed := true }
  | _ => none

def State.write (s : State) (n : Nat) : Option State :=
  match s.client with
  | .sendLen argl args count =>
    if 0 < n ∧ count+n ≤ sizeofInt then
      some { s with
        client := .sendLen argl args (count+n)
        stream := s.stream++((intBytes argl).drop count).take n }
    else none
  | .sendArgs args count =>
    if 0 < n ∧ count+n ≤ args.length then
      some { s with
        client := .sendArgs args (count+n)
        stream := s.stream++(args.drop count).take n }
    else none
  | _ => none

def State.serverStep (x : Input) (s : State) : Option State :=
  match s.server with
  | .recvLen buf =>
    if buf.length = sizeofInt then some { s with server := .check (intValue buf) } else none
  | .check argl =>
    some { s with
      server := if 0 < argl ∧ argl ≤ 2048 then .recvArgs argl.toNat [] else .assertFailed }
  | .recvArgs argl buf =>
    if buf.length = argl then some { s with server := .unpack buf } else none
  | .unpack args => some { s with server := unpackMessage x args }
  | _ => none

def State.read (s : State) (n : Nat) : Option State :=
  if 0 < n ∧ n ≤ s.stream.length then
    match s.server with
    | .recvLen buf =>
      if buf.length+n ≤ sizeofInt then
        some { s with server := .recvLen (buf++s.stream.take n), stream := s.stream.drop n }
      else none
    | .recvArgs argl buf =>
      if buf.length+n ≤ argl then
        some { s with server := .recvArgs argl (buf++s.stream.take n), stream := s.stream.drop n }
      else none
    | _ => none
  else none

def State.endOfStream (s : State) : Option State :=
  if s.stream = [] ∧ s.closed = true then
    match s.server with
    | .recvLen buf =>
      if buf.length < sizeofInt then some { s with server := .aborting } else none
    | .recvArgs argl buf =>
      if buf.length < argl then some { s with server := .aborting } else none
    | _ => none
  else none

inductive Label where
  | client
  | write (n : Nat)
  | server
  | read (n : Nat)
  | endOfStream

def State.exec (x : Input) (s : State) : Label → Option State
  | .client => s.clientStep x
  | .write n => s.write n
  | .server => s.serverStep x
  | .read n => s.read n
  | .endOfStream => s.endOfStream

def initial : State := ⟨.start,.recvLen [],[],false⟩

def system (x : Input) : System State Label where
  init s := s = initial
  next := State.exec x

/-! Integers in memory. -/

theorem toInt_eq {n : Nat} (hn : n < 2147483648) : toInt n = n := by
  rw [toInt]
  split <;> omega

theorem toInt_le (n : Nat) : toInt n ≤ n := by
  rw [toInt]
  split <;> omega

theorem length_intBytes (x : Int) : (intBytes x).length = sizeofInt := length_pointerBytes _ _

theorem intValue_intBytes (n : Nat) : intValue (intBytes (toInt n)) = toInt n := by
  have hpow : 256^sizeofInt = 4294967296 := rfl
  have hmod : (toInt n%4294967296).toNat%4294967296 = n%4294967296 := by
    rw [toInt]
    split <;> omega
  rw [intValue, intBytes, pointerValue_pointerBytes, hpow, hmod, toInt, toInt, Nat.mod_mod]

/-! Of the stream W, k bytes have been written and r bytes read. -/

def inFlight (W : List UInt8) (k r : Nat) : List UInt8 := (W.take k).drop r

section
variable {W : List UInt8} {k r n : Nat}

theorem length_inFlight (hk : k ≤ W.length) : (inFlight W k r).length = k-r := by
  simp [inFlight, Nat.min_eq_left hk]

theorem inFlight_write (hk : k ≤ W.length) (hr : r ≤ k) :
    inFlight W k r++(W.drop k).take n = inFlight W (k+n) r := by
  have hlen : r ≤ (W.take k).length := by rwa [List.length_take, Nat.min_eq_left hk]
  rw [inFlight, inFlight, List.take_add, List.drop_append_of_le_length hlen]

theorem inFlight_drop : (inFlight W k r).drop n = inFlight W k (r+n) := by
  rw [inFlight, inFlight, List.drop_drop]

theorem take_inFlight (hn : r+n ≤ k) : W.take r++(inFlight W k r).take n = W.take (r+n) := by
  rw [inFlight, List.drop_take, List.take_take, Nat.min_eq_left (by omega), List.take_add]

end

/-! The strings strs are argv[1] to argv[argc-1]. -/

section
variable {x : Input} {strs : List (List UInt8)} {s s' : State} {k r : Nat}

def message (strs : List (List UInt8)) : List UInt8 :=
  intBytes (toInt (packed strs).length)++packed strs

theorem length_message (strs : List (List UInt8)) :
    (message strs).length = sizeofInt+(packed strs).length := by
  rw [message, List.length_append, length_intBytes]

theorem message_len {count n : Nat} (hn : count+n ≤ sizeofInt) :
    ((intBytes (toInt (packed strs).length)).drop count).take n =
      ((message strs).drop count).take n := by
  have hlen := length_intBytes (toInt (packed strs).length)
  rw [message, List.drop_append_of_le_length (by omega),
    List.take_append_of_le_length (by rw [List.length_drop]; omega)]

theorem message_args (count : Nat) :
    (message strs).drop (sizeofInt+count) = (packed strs).drop count := by
  have hlen := length_intBytes (toInt (packed strs).length)
  rw [message, ← hlen, List.drop_length_add_append]

def Client.Ok (strs : List (List UInt8)) (k : Nat) : Client → Prop
  | .start => k = 0
  | .sendLen argl args count =>
    argl = toInt (packed strs).length ∧ args = packed strs ∧ count ≤ sizeofInt ∧ k = count
  | .sendArgs args count => args = packed strs ∧ count ≤ args.length ∧ k = sizeofInt+count
  | .shutDown | .display => k = sizeofInt+(packed strs).length
  | .refused | .fault => False

def Server.Ok (x : Input) (strs : List (List UInt8)) (r : Nat) : Server → Prop
  | .recvLen buf => r = buf.length ∧ r ≤ sizeofInt ∧ buf = (message strs).take r
  | .check argl => r = sizeofInt ∧ argl = toInt (packed strs).length
  | .recvArgs argl buf => argl = (packed strs).length ∧ buf.length ≤ argl ∧
      r = sizeofInt+buf.length ∧ buf = (packed strs).take buf.length
  | .unpack args => r = sizeofInt+(packed strs).length ∧ args = packed strs
  | .execute argv => r = sizeofInt+(packed strs).length ∧ argv = processArgs x strs
  | .aborting | .assertFailed | .fault => False

structure Inv (x : Input) (strs : List (List UInt8)) (s : State) (k r : Nat) : Prop where
  client : s.client.Ok strs k
  server : s.server.Ok x strs r
  order : r ≤ k
  stream : s.stream = inFlight (message strs) k r
  closed : s.closed = true ↔ s.client = .display

def Client.left (T : Nat) : Client → Nat
  | .start => sizeofInt+T+4
  | .sendLen _ _ count => sizeofInt-count+T+3
  | .sendArgs args count => args.length-count+2
  | .shutDown => 1
  | _ => 0

def Server.left (T : Nat) : Server → Nat
  | .recvLen buf => sizeofInt-buf.length+T+4
  | .check _ => T+3
  | .recvArgs argl buf => argl-buf.length+2
  | .unpack _ => 1
  | _ => 0

def State.left (s : State) (T : Nat) : Nat := s.client.left T+s.server.left T

theorem Inv.bound (h : Inv x strs s k r) : k ≤ (message strs).length := by
  have hc := h.client
  rw [length_message]
  cases hs : s.client with
  | start =>
    rw [hs] at hc
    have hk : k = 0 := hc
    omega
  | sendLen argl args count =>
    rw [hs] at hc
    obtain ⟨-,-,hle,hk⟩ := hc
    omega
  | sendArgs args count =>
    rw [hs] at hc
    obtain ⟨hargs,hle,hk⟩ := hc
    rw [hargs] at hle
    omega
  | shutDown =>
    rw [hs] at hc
    exact Nat.le_of_eq hc
  | display =>
    rw [hs] at hc
    exact Nat.le_of_eq hc
  | _ =>
    rw [hs] at hc
    exact hc.elim

theorem Inv.write {n : Nat} (h : Inv x strs s k r) (hs : s.write n = some s') :
    ∃ k', Inv x strs s' k' r ∧ s'.left (packed strs).length < s.left (packed strs).length := by
  have hc := h.client
  have hbound := h.bound
  have hclosed : s.client≠.display → s.closed≠true := fun hne hcl => hne (h.closed.mp hcl)
  cases hcl : s.client with
  | sendLen argl args count =>
    simp only [State.write, hcl, Option.ite_none_right_eq_some, Option.some.injEq] at hs
    obtain ⟨hn,rfl⟩ := hs
    rw [hcl] at hc
    obtain ⟨rfl,hargs,-,rfl⟩ := hc
    refine ⟨k+n,⟨⟨rfl,hargs,hn.2,rfl⟩,h.server,Nat.le_trans h.order (Nat.le_add_right _ _),?_,
      by simpa [hcl] using h.closed⟩,?_⟩
    · show s.stream++_ = _
      rw [h.stream, message_len hn.2, inFlight_write hbound h.order]
    · simp only [State.left, Client.left, hcl]
      omega
  | sendArgs args count =>
    simp only [State.write, hcl, Option.ite_none_right_eq_some, Option.some.injEq] at hs
    obtain ⟨hn,rfl⟩ := hs
    rw [hcl] at hc
    obtain ⟨rfl,-,rfl⟩ := hc
    refine ⟨sizeofInt+count+n,⟨⟨rfl,hn.2,by omega⟩,h.server,
      Nat.le_trans h.order (Nat.le_add_right _ _),?_,by simpa [hcl] using h.closed⟩,?_⟩
    · show s.stream++_ = _
      rw [h.stream, ← message_args, inFlight_write hbound h.order]
    · simp only [State.left, Client.left, hcl]
      omega
  | _ => simp [State.write, hcl] at hs

theorem Inv.read {n : Nat} (h : Inv x strs s k r) (hs : s.read n = some s') :
    ∃ r', Inv x strs s' k r' ∧ s'.left (packed strs).length < s.left (packed strs).length := by
  have hsv := h.server
  have hbound := h.bound
  simp only [State.read, Option.ite_none_right_eq_some] at hs
  obtain ⟨⟨hn,hle⟩,hs⟩ := hs
  have hlen : n ≤ k-r := by rwa [h.stream, length_inFlight hbound] at hle
  have horder := h.order
  have htake := take_inFlight (W := message strs) (k := k) (r := r) (n := n) (by omega)
  cases hcl : s.server with
  | recvLen buf =>
    simp only [hcl, Option.ite_none_right_eq_some, Option.some.injEq] at hs
    obtain ⟨hroom,rfl⟩ := hs
    rw [hcl] at hsv
    obtain ⟨hr,hr4,hbuf⟩ := hsv
    have hnew : buf++s.stream.take n = (message strs).take (r+n) := by
      rw [hbuf, h.stream, htake]
    have hnewlen : (buf++s.stream.take n).length = r+n := by
      rw [List.length_append, List.length_take, Nat.min_eq_left hle, hr]
    refine ⟨r+n,⟨h.client,⟨hnewlen.symm,by omega,hnew⟩,by omega,?_,h.closed⟩,?_⟩
    · show s.stream.drop n = _
      rw [h.stream, inFlight_drop]
    · simp only [State.left, Server.left, hcl, hnewlen]
      omega
  | recvArgs argl buf =>
    simp only [hcl, Option.ite_none_right_eq_some, Option.some.injEq] at hs
    obtain ⟨hroom,rfl⟩ := hs
    rw [hcl] at hsv
    obtain ⟨rfl,hle',hr,hbuf⟩ := hsv
    have hnewlen : (buf++s.stream.take n).length = buf.length+n := by
      rw [List.length_append, List.length_take, Nat.min_eq_left hle]
    have hnew : buf++s.stream.take n = (packed strs).take (buf.length+n) := by
      have hflight : (inFlight (message strs) k r).take n =
          ((packed strs).drop buf.length).take n := by
        rw [inFlight, List.drop_take, List.take_take, Nat.min_eq_left (by omega), hr,
          message_args]
      rw [h.stream, hflight, List.take_add, ← hbuf]
    refine ⟨r+n,⟨h.client,⟨rfl,by omega,by omega,by rw [hnewlen]; exact hnew⟩,by omega,?_,
      h.closed⟩,?_⟩
    · show s.stream.drop n = _
      rw [h.stream, inFlight_drop]
    · simp only [State.left, Server.left, hcl, hnewlen]
      omega
  | _ => simp [hcl] at hs

theorem Inv.endOfStream (h : Inv x strs s k r) (hs : s.endOfStream = some s') : False := by
  simp only [State.endOfStream, Option.ite_none_right_eq_some] at hs
  obtain ⟨⟨hnil,hclosed⟩,hs⟩ := hs
  have hc := h.client
  rw [h.closed.mp hclosed] at hc
  have hk : k = sizeofInt+(packed strs).length := hc
  have hlen := length_inFlight (r := r) h.bound
  rw [← h.stream, hnil, List.length_nil] at hlen
  have hsv := h.server
  cases hcl : s.server with
  | recvLen buf =>
    rw [hcl] at hsv
    simp only [hcl, Option.ite_none_right_eq_some] at hs
    obtain ⟨hr,-,-⟩ := hsv
    omega
  | recvArgs argl buf =>
    rw [hcl] at hsv
    simp only [hcl, Option.ite_none_right_eq_some] at hs
    obtain ⟨hargl,-,hr,-⟩ := hsv
    omega
  | _ => simp [hcl] at hs

/-! What the two sides do between the calls of Write and Read. -/

variable (hargc : 1 < x.argv.length)
  (hmake : makeMessage x = .sendLen (toInt (packed strs).length) (packed strs) 0)
  (hunpack : unpackMessage x (packed strs) = .execute (processArgs x strs))
  (hpos : 0 < (packed strs).length) (hmax : (packed strs).length ≤ 2048)

include hargc hmake in
theorem Inv.clientStep (h : Inv x strs s k r) (hs : s.clientStep x = some s') :
    Inv x strs s' k r ∧ s'.left (packed strs).length < s.left (packed strs).length := by
  have hc := h.client
  cases hcl : s.client with
  | start =>
    simp only [State.clientStep, hcl, if_neg (Nat.not_le.mpr hargc), hmake, Option.some.injEq]
      at hs
    subst hs
    rw [hcl] at hc
    have hk : k = 0 := hc
    refine ⟨⟨⟨rfl,rfl,Nat.zero_le _,hk⟩,h.server,h.order,h.stream,?_⟩,?_⟩
    · simpa [hcl] using h.closed
    · simp only [State.left, Client.left, hcl]
      omega
  | sendLen argl args count =>
    simp only [State.clientStep, hcl, Option.ite_none_right_eq_some, Option.some.injEq] at hs
    obtain ⟨hcount,rfl⟩ := hs
    rw [hcl] at hc
    obtain ⟨-,hargs,-,hk⟩ := hc
    refine ⟨⟨⟨hargs,Nat.zero_le _,by omega⟩,h.server,h.order,h.stream,?_⟩,?_⟩
    · simpa [hcl] using h.closed
    · simp only [State.left, Client.left, hcl, hargs]
      omega
  | sendArgs args count =>
    simp only [State.clientStep, hcl, Option.ite_none_right_eq_some, Option.some.injEq] at hs
    obtain ⟨hcount,rfl⟩ := hs
    rw [hcl] at hc
    obtain ⟨hargs,-,hk⟩ := hc
    refine ⟨⟨?_,h.server,h.order,h.stream,?_⟩,?_⟩
    · show k = _
      rw [hk, hcount, hargs]
    · simpa [hcl] using h.closed
    · simp only [State.left, Client.left, hcl]
      omega
  | shutDown =>
    simp only [State.clientStep, hcl, Option.some.injEq] at hs
    subst hs
    rw [hcl] at hc
    refine ⟨⟨hc,h.server,h.order,h.stream,?_⟩,?_⟩
    · simp
    · simp only [State.left, Client.left, hcl]
      omega
  | _ => simp [State.clientStep, hcl] at hs

include hunpack hpos hmax in
theorem Inv.serverStep (h : Inv x strs s k r) (hs : s.serverStep x = some s') :
    Inv x strs s' k r ∧ s'.left (packed strs).length < s.left (packed strs).length := by
  have hsv := h.server
  cases hcl : s.server with
  | recvLen buf =>
    simp only [State.serverStep, hcl, Option.ite_none_right_eq_some, Option.some.injEq] at hs
    obtain ⟨hlen,rfl⟩ := hs
    rw [hcl] at hsv
    obtain ⟨hr,-,hbuf⟩ := hsv
    have hr4 : r = sizeofInt := hr.trans hlen
    have hbytes : buf = intBytes (toInt (packed strs).length) := by
      rw [hbuf, hr4, message]
      exact List.take_left' (length_intBytes _)
    refine ⟨⟨h.client,⟨hr4,?_⟩,h.order,h.stream,h.closed⟩,?_⟩
    · rw [hbytes, intValue_intBytes]
    · simp only [State.left, Server.left, hcl]
      omega
  | check argl =>
    rw [hcl] at hsv
    obtain ⟨hr,rfl⟩ := hsv
    have hint : toInt (packed strs).length = (packed strs).length := toInt_eq (by omega)
    have hassert : 0 < toInt (packed strs).length ∧ toInt (packed strs).length ≤ 2048 := by omega
    simp only [State.serverStep, hcl, if_pos hassert, Option.some.injEq] at hs
    subst hs
    refine ⟨⟨h.client,⟨by rw [hint]; rfl,Nat.zero_le _,hr,rfl⟩,h.order,h.stream,h.closed⟩,?_⟩
    simp only [State.left, Server.left, hcl, hint, List.length_nil]
    omega
  | recvArgs argl buf =>
    simp only [State.serverStep, hcl, Option.ite_none_right_eq_some, Option.some.injEq] at hs
    obtain ⟨hlen,rfl⟩ := hs
    rw [hcl] at hsv
    obtain ⟨hargl,-,hr,hbuf⟩ := hsv
    refine ⟨⟨h.client,⟨by rw [hr, hlen, hargl],?_⟩,h.order,h.stream,h.closed⟩,?_⟩
    · rw [hbuf, hlen, hargl, List.take_length]
    · simp only [State.left, Server.left, hcl]
      omega
  | unpack args =>
    rw [hcl] at hsv
    obtain ⟨hr,rfl⟩ := hsv
    simp only [State.serverStep, hcl, hunpack, Option.some.injEq] at hs
    subst hs
    refine ⟨⟨h.client,⟨hr,rfl⟩,h.order,h.stream,h.closed⟩,?_⟩
    simp only [State.left, Server.left, hcl]
    omega
  | _ => simp [State.serverStep, hcl] at hs

include hargc hmake hunpack hpos hmax in
theorem Inv.exec (h : Inv x strs s k r) {a : Label} (hs : s.exec x a = some s') :
    ∃ k' r', Inv x strs s' k' r' ∧
      s'.left (packed strs).length < s.left (packed strs).length := by
  cases a with
  | client => exact ⟨k,r,h.clientStep hargc hmake hs⟩
  | write n =>
    obtain ⟨k',h'⟩ := h.write hs
    exact ⟨k',r,h'⟩
  | server => exact ⟨k,r,h.serverStep hunpack hpos hmax hs⟩
  | read n =>
    obtain ⟨r',h'⟩ := h.read hs
    exact ⟨k,r',h'⟩
  | endOfStream => exact (h.endOfStream hs).elim

theorem Inv.initial : Inv x strs initial 0 0 where
  client := rfl
  server := ⟨rfl,Nat.zero_le _,rfl⟩
  order := Nat.le_refl _
  stream := by simp [Remote.initial, inFlight]
  closed := by simp [Remote.initial]

theorem Inv.client_enabled (h : Inv x strs s k r) (hr : r < (message strs).length)
    (hnil : s.stream = []) : ∃ a s', s.exec x a = some s' := by
  have hc := h.client
  have hlen := length_inFlight (r := r) h.bound
  rw [← h.stream, hnil, List.length_nil] at hlen
  rw [length_message] at hr
  cases hcl : s.client with
  | start => exact ⟨.client,_,by simp only [State.exec, State.clientStep, hcl]; rfl⟩
  | sendLen argl args count =>
    rw [hcl] at hc
    obtain ⟨-,-,hle,hk⟩ := hc
    by_cases hcount : count = sizeofInt
    · exact ⟨.client,_,by simp only [State.exec, State.clientStep, hcl, if_pos hcount]; rfl⟩
    · have hn : 0 < 1 ∧ count+1 ≤ sizeofInt := by omega
      exact ⟨.write 1,_,by simp only [State.exec, State.write, hcl, if_pos hn]; rfl⟩
  | sendArgs args count =>
    rw [hcl] at hc
    obtain ⟨-,hle,hk⟩ := hc
    by_cases hcount : count = args.length
    · exact ⟨.client,_,by simp only [State.exec, State.clientStep, hcl, if_pos hcount]; rfl⟩
    · have hn : 0 < 1 ∧ count+1 ≤ args.length := by omega
      exact ⟨.write 1,_,by simp only [State.exec, State.write, hcl, if_pos hn]; rfl⟩
  | shutDown => exact ⟨.client,_,by simp only [State.exec, State.clientStep, hcl]; rfl⟩
  | display =>
    rw [hcl] at hc
    have hk : k = sizeofInt+(packed strs).length := hc
    have horder := h.order
    omega
  | _ =>
    rw [hcl] at hc
    exact hc.elim

theorem Inv.stuck (h : Inv x strs s k r) (hs : ∀ a, s.exec x a = none) :
    s.server = .execute (processArgs x strs) := by
  have hsv := h.server
  have hserver := hs .server
  have hread := hs (.read 1)
  have hstream : r < (message strs).length → s.stream≠[] := by
    intro hr hnil
    obtain ⟨a,s',ha⟩ := h.client_enabled hr hnil
    rw [hs a] at ha
    cases ha
  have hone : s.stream≠[] → 0 < 1 ∧ 1 ≤ s.stream.length := fun hne =>
    ⟨Nat.one_pos,List.length_pos_of_ne_nil hne⟩
  rw [length_message] at hstream
  cases hcl : s.server with
  | recvLen buf =>
    rw [hcl] at hsv
    obtain ⟨hr,hr4,-⟩ := hsv
    simp only [State.exec, State.serverStep, hcl, ite_eq_right_iff, reduceCtorEq, imp_false]
      at hserver
    have hne := hone (hstream (by omega))
    simp only [State.exec, State.read, hcl, if_pos hne, ite_eq_right_iff, reduceCtorEq,
      imp_false] at hread
    omega
  | check argl => simp [State.exec, State.serverStep, hcl] at hserver
  | recvArgs argl buf =>
    rw [hcl] at hsv
    obtain ⟨hargl,hle,hr,-⟩ := hsv
    simp only [State.exec, State.serverStep, hcl, ite_eq_right_iff, reduceCtorEq, imp_false]
      at hserver
    have hne := hone (hstream (by omega))
    simp only [State.exec, State.read, hcl, if_pos hne, ite_eq_right_iff, reduceCtorEq,
      imp_false] at hread
    omega
  | unpack args => simp [State.exec, State.serverStep, hcl] at hserver
  | execute argv =>
    rw [hcl] at hsv
    rw [hsv.2]
  | _ =>
    rw [hcl] at hsv
    exact hsv.elim

end

/-! Messages that do not fit. -/

section
variable {x : Input} {strs : List (List UInt8)}

theorem makeMessage_eq (h : List.Forall₂ (StringAt x.mem) x.argv.tail strs)
    (hpos : 0 < (packed strs).length) (hmax : (packed strs).length < 2147483648) :
    makeMessage x = .sendLen (toInt (packed strs).length) (packed strs) 0 := by
  have hspace : (packed strs).length < ADDRESS_SPACE := Nat.lt_trans hmax (by decide)
  have hint := toInt_eq hmax
  have hlt : 0 < toInt (packed strs).length := by omega
  have hnat : (toInt (packed strs).length).toNat = (packed strs).length := by omega
  have hpack := argvpack_eq h hspace [] (List.replicate (packed strs).length 0) (by simp)
  simp only [List.nil_append, List.length_nil] at hpack
  simp only [makeMessage, argvlen_eq h hspace, if_pos hlt, hnat, hpack]
  simp

theorem makeMessage_fault (h : List.Forall₂ (StringAt x.mem) x.argv.tail strs)
    (hint : toInt (packed strs).length≠(packed strs).length) : makeMessage x = .fault := by
  have hle := toInt_le (packed strs).length
  by_cases hlong : ∃ str∈strs, ADDRESS_SPACE ≤ str.length
  · simp only [makeMessage, argvlen_none h hlong]
  have hfit : ∀ str∈strs, str.length < ADDRESS_SPACE := fun str hm =>
    Nat.lt_of_not_le fun hge => hlong ⟨str,hm,hge⟩
  by_cases hlt : 0 < toInt (packed strs).length
  · have hroom : (List.replicate (toInt (packed strs).length).toNat (0 : UInt8)).length <
        (packed strs).length := by
      rw [List.length_replicate]
      omega
    simp only [makeMessage, argvlen_sum h hfit, if_pos hlt, argvpack_none h hfit hroom]
  · simp only [makeMessage, argvlen_sum h hfit, if_neg hlt]

theorem unpackMessage_eq (h : ∀ str∈strs, ∀ b∈str, b≠0) :
    unpackMessage x (packed strs) = .execute (processArgs x strs) := by
  obtain ⟨ps,hps,hmap⟩ := argvunpack_packed h []
  rw [List.append_nil] at hps
  simp only [unpackMessage, argscount_packed h, hps, hmap]

theorem assertFailed_reachable (hargc : 1 < x.argv.length)
    (hmake : makeMessage x = .sendLen (toInt (packed strs).length) (packed strs) 0)
    (hmax : 2048 < (packed strs).length) (hint : (packed strs).length < 2147483648) :
    ∃ s, (system x).Reachable s ∧ s.server = .assertFailed := by
  have hlen : (intBytes (toInt (packed strs).length)).length = 4 := length_intBytes _
  have hvalue := intValue_intBytes (packed strs).length
  set hdr := intBytes (toInt (packed strs).length) with hhdr
  have hrun : (system x).run initial [.client,.write 4,.read 4,.server,.server] =
      some ⟨.sendLen (toInt (packed strs).length) (packed strs) 4,.assertFailed,[],false⟩ := by
    have htake : hdr.take 4 = hdr := List.take_of_length_le (by omega)
    have hdrop : hdr.drop 4 = [] := List.drop_eq_nil_of_le (by omega)
    have hfail : ¬(0 < toInt (packed strs).length ∧ toInt (packed strs).length ≤ 2048) := by
      rw [toInt_eq hint]
      omega
    simp [System.run, system, State.exec, State.clientStep, State.write, State.read,
      State.serverStep, initial, hmake, Nat.not_le.mpr hargc, ← hhdr, hlen, htake, hdrop, hvalue,
      hfail]
  exact ⟨_,(system x).reachable_run _ (.init rfl) hrun,rfl⟩

theorem fault_stuck (hargc : 1 < x.argv.length) (hmake : makeMessage x = .fault) :
    ∃ s, (system x).Reachable s ∧ (∀ a, (system x).next s a = none) ∧ s.server = .recvLen [] := by
  have hstep : (system x).next initial .client = some ⟨.fault,.recvLen [],[],false⟩ := by
    simp [system, State.exec, State.clientStep, initial, hmake, Nat.not_le.mpr hargc]
  refine ⟨_,.step (.init rfl) hstep,fun a => ?_,rfl⟩
  cases a with
  | client => rfl
  | write n => rfl
  | server => rfl
  | read n =>
    cases n with
    | zero => rfl
    | succ n => rfl
  | endOfStream => rfl

end

theorem Inv.step {x : Input} {strs : List (List UInt8)}
    (h : List.Forall₂ (StringAt x.mem) x.argv.tail strs) (hargc : 2 ≤ x.argv.length)
    (hpos : 0 < (packed strs).length) (hmax : (packed strs).length ≤ 2048) {s s' : State}
    {a : Label} (hi : ∃ k r, Inv x strs s k r) (hs : (system x).next s a = some s') :
    (∃ k r, Inv x strs s' k r) ∧ s'.left (packed strs).length < s.left (packed strs).length := by
  obtain ⟨k,r,hi⟩ := hi
  have hmake := makeMessage_eq h hpos (by omega)
  obtain ⟨k',r',hi',hlt⟩ :=
    hi.exec hargc hmake (unpackMessage_eq (strings_ne_zero h)) hpos hmax hs
  exact ⟨⟨k',r',hi'⟩,hlt⟩

theorem Inv.outcome {x : Input} {strs : List (List UInt8)} {s : State} {k r : Nat}
    (hi : Inv x strs s k r) :
    s.server≠.assertFailed ∧ s.server≠.aborting ∧ s.server≠.fault ∧
      ∀ argv, s.server = .execute argv → argv = processArgs x strs := by
  have hsv := hi.server
  refine ⟨fun hs => ?_,fun hs => ?_,fun hs => ?_,fun argv hs => ?_⟩
  · rw [hs] at hsv
    exact hsv
  · rw [hs] at hsv
    exact hsv
  · rw [hs] at hsv
    exact hsv
  · rw [hs] at hsv
    exact hsv.2

/-- The server gets the arguments behind the program's name, and does not fail, exactly where
the message is not longer than 2048 bytes. -/
theorem remote_argv_iff {x : Input} {strs : List (List UInt8)}
    (h : List.Forall₂ (StringAt x.mem) x.argv.tail strs) (hargc : 2 ≤ x.argv.length) :
    ((∀ s, (system x).Reachable s →
        s.server≠.assertFailed ∧ s.server≠.aborting ∧ s.server≠.fault ∧
        (∀ argv, s.server = .execute argv →
          argv = asBytes "rsrv_process"::asBytes (toString x.sock)::strs) ∧
        ((∀ a, (system x).next s a = none) →
          s.server = .execute (asBytes "rsrv_process"::asBytes (toString x.sock)::strs))) ∧
      ∃ bound, ∀ as s, (system x).run initial as = some s → as.length ≤ bound) ↔
    (packed strs).length ≤ 2048 := by
  have hpos : 0 < (packed strs).length := by
    have hlen := h.length_eq
    rw [List.length_tail] at hlen
    cases strs with
    | nil =>
      simp only [List.length_nil] at hlen
      omega
    | cons str strs => simp [packed_cons]
  constructor
  · intro hall
    by_contra hmax
    have hlt : 2048 < (packed strs).length := Nat.lt_of_not_le hmax
    by_cases hint : (packed strs).length < 2147483648
    · obtain ⟨s,hr,hs⟩ := assertFailed_reachable hargc (makeMessage_eq h hpos hint) hlt hint
      exact (hall.1 s hr).1 hs
    · have hne : toInt (packed strs).length≠(packed strs).length := by
        rw [toInt]
        split <;> omega
      obtain ⟨s,hr,hstuck,hs⟩ := fault_stuck hargc (makeMessage_fault h hne)
      have hexec := (hall.1 s hr).2.2.2.2 hstuck
      rw [hs] at hexec
      cases hexec
  · intro hmax
    have hstep : ∀ s a s', (∃ k r, Inv x strs s k r) → (system x).next s a = some s' →
        (∃ k r, Inv x strs s' k r) ∧
          s'.left (packed strs).length < s.left (packed strs).length :=
      fun s a s' hi hs => Inv.step h hargc hpos hmax hi hs
    refine ⟨fun s hr => ?_,initial.left (packed strs).length,fun as s hrun => ?_⟩
    · obtain ⟨k,r,hi⟩ := (system x).invariant (fun s => ∃ k r, Inv x strs s k r)
        (fun s hs => ⟨0,0,(show s = initial from hs) ▸ .initial⟩)
        (fun s a s' hi hs => (hstep s a s' hi hs).1) hr
      obtain ⟨hassert,habort,hfault,hexec⟩ := hi.outcome
      exact ⟨hassert,habort,hfault,hexec,hi.stuck⟩
    · exact (system x).run_length_le _ (fun s => s.left (packed strs).length) hstep
        ⟨0,0,.initial⟩ hrun

def hiInput : Input where
  mem addr := if addr = 0 then 104 else if addr = 1 then 105 else 0
  argv := [2,0]
  sock := 3

theorem remote_argv_hi :
    (∃ bound, ∀ as s, (system hiInput).run initial as = some s → as.length ≤ bound) ∧
      ∀ s, (system hiInput).Reachable s → (∀ a, (system hiInput).next s a = none) →
        s.server = .execute [asBytes "rsrv_process",asBytes (toString 3),[104,105]] := by
  have hstr : List.Forall₂ (StringAt hiInput.mem) hiInput.argv.tail [[104,105]] := by
    simp [StringAt, hiInput]
  have hall := (remote_argv_iff hstr (Nat.le_refl 2)).mpr (by decide)
  exact ⟨hall.2,fun s hs => (hall.1 s hs).2.2.2.2⟩

def longInput : Input where
  mem addr := if addr < 2048 then 97 else 0
  argv := [2048,0]
  sock := 3

theorem longInput_string (n s : Nat) (hs : s+n = 2048) :
    StringAt longInput.mem s (List.replicate n 97) := by
  induction n generalizing s with
  | zero =>
    show longInput.mem s = 0
    simp only [longInput]
    rw [if_neg (by omega)]
  | succ n ih =>
    rw [List.replicate_succ]
    refine ⟨by decide,?_,ih (s+1) (by omega)⟩
    simp only [longInput]
    rw [if_pos (by omega)]

theorem remote_argv_long :
    List.Forall₂ (StringAt longInput.mem) longInput.argv.tail [List.replicate 2048 97] ∧
      ∃ s, (system longInput).Reachable s ∧ s.server = .assertFailed := by
  have hstr : List.Forall₂ (StringAt longInput.mem) longInput.argv.tail
      [List.replicate 2048 97] := .cons (longInput_string 2048 0 rfl) .nil
  have hlen : (packed [List.replicate 2048 97]).length = 2049 := by
    rw [packed_cons, List.length_append, List.length_append, List.length_replicate]
    rfl
  have hmake := makeMessage_eq hstr (by omega) (by omega)
  exact ⟨hstr,assertFailed_reachable (Nat.lt_succ_self 1) hmake (by omega) (by omega)⟩

end TinyOS.Shell.Remote
