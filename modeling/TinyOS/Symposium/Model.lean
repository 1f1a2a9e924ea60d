import Mathlib.Logic.Function.Basic
import TinyOS.Lib.Transition

/-! The dining philosophers of symposium.c: a monitor whose mutex is mx, with one step for
each statement of SymposiumTable_philosopher. -/
namespace TinyOS.Symposium

inductive PHIL where
  | NOTHERE | THINKING | HUNGRY | EATING
  deriving DecidableEq

def LEFT {N : Nat} (i : Fin N) : Fin N := ⟨(i.val+1)%N,Nat.mod_lt _ i.pos⟩

def RIGHT {N : Nat} (i : Fin N) : Fin N := ⟨(i.val+N-1)%N,Nat.mod_lt _ i.pos⟩

/-! The source computes LEFT and RIGHT on int. -/

def intLEFT (i N : BitVec 32) : BitVec 32 := (i+1).srem N

def intRIGHT (i N : BitVec 32) : BitVec 32 := (i+N-1).srem N

theorem toInt_ofNat_of_lt {n : Nat} (h : n < 2147483648) : (BitVec.ofNat 32 n).toInt = n := by
  rw [BitVec.toInt_ofNat']
  exact Int.bmod_eq_of_le (by omega) (by omega)

theorem intLEFT_eq {N : Nat} (hN : N≤1073741824) (i : Fin N) :
    (intLEFT (BitVec.ofNat 32 i) (BitVec.ofNat 32 N)).toInt = (LEFT i).val := by
  have hi := i.isLt
  have hsum : BitVec.ofNat 32 i.val+1 = BitVec.ofNat 32 (i.val+1) := BitVec.ofNat_add_ofNat ..
  rw [intLEFT, hsum, BitVec.toInt_srem, toInt_ofNat_of_lt (by omega), toInt_ofNat_of_lt (by omega)]
  exact (Int.ofNat_tmod _ _).symm

/-- Up to 2^30 philosophers i+N does not overflow. -/
theorem intRIGHT_eq {N : Nat} (hN : N≤1073741824) (i : Fin N) :
    (intRIGHT (BitVec.ofNat 32 i) (BitVec.ofNat 32 N)).toInt = (RIGHT i).val := by
  have hi := i.isLt
  have hsum : BitVec.ofNat 32 i.val+BitVec.ofNat 32 N-1 = BitVec.ofNat 32 (i.val+N-1) := by
    apply BitVec.eq_of_toInt_eq
    rw [toInt_ofNat_of_lt (by omega), BitVec.toInt_sub, BitVec.toInt_add,
      toInt_ofNat_of_lt (by omega), toInt_ofNat_of_lt (by omega)]
    have h1 : ((1 : BitVec 32)).toInt = 1 := rfl
    rw [h1, Int.bmod_eq_of_le (n := i.val+N) (by omega) (by omega),
      Int.bmod_eq_of_le (by omega) (by omega)]
    omega
  rw [intRIGHT, hsum, BitVec.toInt_srem, toInt_ofNat_of_lt (by omega), toInt_ofNat_of_lt (by omega)]
  exact (Int.ofNat_tmod _ _).symm

inductive Target where
  | self | left | right
  deriving DecidableEq

def Target.of {N : Nat} (i : Fin N) : Target → Fin N
  | .self => i
  | .left => LEFT i
  | .right => RIGHT i

/-- The statement a philosopher is at; j counts the bites. -/
inductive Pc where
  /-- Mutex_Lock in front of the arrival. -/
  | start
  | arrive
  | arrived
  /-- The head of the loop: think, then Mutex_Lock. -/
  | think (j : Nat)
  | hungry (j : Nat)
  | tryToEat (b : Target) (j : Nat)
  /-- Cond_Signal of trytoeat. -/
  | signal (b : Target) (j : Nat)
  /-- while(state[i]==HUNGRY) -/
  | test (j : Nat)
  /-- In Cond_Wait, asleep on hungry[i]. -/
  | asleep (j : Nat)
  /-- In Cond_Wait, woken, at its Mutex_Lock. -/
  | relock (j : Nat)
  /-- assert(state[i]==EATING) -/
  | check (j : Nat)
  | served (j : Nat)
  /-- Eat, then Mutex_Lock. -/
  | eat (j : Nat)
  | full (j : Nat)
  | done (j : Nat)
  | leave
  | left
  | finished
  deriving DecidableEq

structure State (N : Nat) where
  pc : Fin N → Pc
  state : Fin N → PHIL
  mx : Option (Fin N)
  /-- For the proofs: how often each has become EATING. -/
  eaten : Fin N → Nat

section
variable {N : Nat}

def State.goto (s : State N) (i : Fin N) (p : Pc) : State N :=
  { s with pc := Function.update s.pc i p }

def State.set (s : State N) (i : Fin N) (x : PHIL) : State N :=
  { s with state := Function.update s.state i x }

def State.lock (s : State N) (i : Fin N) : State N := { s with mx := some i }

def State.unlock (s : State N) : State N := { s with mx := none }

def State.canEat (s : State N) (i : Fin N) : Bool :=
  decide (s.state i = .HUNGRY) && decide (s.state (LEFT i)≠.EATING) && decide (s.state (RIGHT i)≠.EATING)

/-- trytoeat up to its Cond_Signal. -/
def State.serve (s : State N) (i : Fin N) : State N :=
  { s.set i .EATING with eaten := Function.update s.eaten i (s.eaten i+1) }

/-- Cond_Signal of hungry[i], on which only philosopher i waits. -/
def State.condSignal (s : State N) (i : Fin N) : State N :=
  match s.pc i with
  | .asleep j => s.goto i (.relock j)
  | _ => s

def Target.next (j : Nat) : Target → Pc
  | .self => .test j
  | .left => .tryToEat .right j
  | .right => .done j

def run (bites : Nat) (s : State N) (i : Fin N) : Pc → Option (State N)
  | .start => some ((s.lock i).goto i .arrive)
  | .arrive => some ((s.set i .THINKING).goto i .arrived)
  | .arrived => some (s.unlock.goto i (.think 0))
  | .think j => some ((s.lock i).goto i (if j<bites then .hungry j else .leave))
  | .hungry j => some ((s.set i .HUNGRY).goto i (.tryToEat .self j))
  | .tryToEat b j =>
    if s.canEat (b.of i) then some ((s.serve (b.of i)).goto i (.signal b j))
    else some (s.goto i (b.next j))
  | .signal b j => some ((s.condSignal (b.of i)).goto i (b.next j))
  | .test j =>
    if s.state i = .HUNGRY then some (s.unlock.goto i (.asleep j))
    else some (s.goto i (.check j))
  | .asleep _ => none
  | .relock j => some ((s.lock i).goto i (.test j))
  | .check j => if s.state i = .EATING then some (s.goto i (.served j)) else none
  | .served j => some (s.unlock.goto i (.eat j))
  | .eat j => some ((s.lock i).goto i (.full j))
  | .full j => some ((s.set i .THINKING).goto i (.tryToEat .left j))
  | .done j => some (s.unlock.goto i (.think (j+1)))
  | .leave => some ((s.set i .NOTHERE).goto i .left)
  | .left => some (s.unlock.goto i .finished)
  | .finished => none

def Pc.locks : Pc → Bool
  | .start | .think _ | .relock _ | .eat _ => true
  | _ => false

def Pc.runs : Pc → Bool
  | .asleep _ | .finished => false
  | _ => true

inductive Label (N : Nat) where
  | run (i : Fin N)
  /-- Cond_Wait may return without a signal. -/
  | spurious (i : Fin N)

def Enabled (s : State N) : Label N → Prop
  | .run i => (s.pc i).runs = true ∧ ((s.pc i).locks = true → s.mx = none)
  | .spurious i => (s.pc i).runs = false ∧ s.pc i≠.finished

instance (s : State N) (a : Label N) : Decidable (Enabled s a) :=
  match a with
  | .run i => inferInstanceAs (Decidable
      ((s.pc i).runs = true ∧ ((s.pc i).locks = true → s.mx = none)))
  | .spurious i => inferInstanceAs (Decidable ((s.pc i).runs = false ∧ s.pc i≠.finished))

def exec (bites : Nat) (s : State N) : Label N → Option (State N)
  | .run i => run bites s i (s.pc i)
  | .spurious i => some (s.condSignal i)

def init : State N where
  pc _ := .start
  state _ := .NOTHERE
  mx := none
  eaten _ := 0

variable (N) in
def system (bites : Nat) : Transition.System (State N) (Label N) where
  init s := s = init
  next s a := if Enabled s a then exec bites s a else none

end
end TinyOS.Symposium
