import Mathlib.Algebra.Group.Int.Defs
import Mathlib.Algebra.Group.Nat.Defs
import Mathlib.Data.Int.Init

/-! The device drivers of kernel_dev.c and console.c, as the streams see them. -/
namespace TinyOS.Kernel

abbrev MAX_TERMINALS : Nat := 4

inductive DeviceType where
  | DEV_NULL | DEV_SERIAL
  deriving DecidableEq

inductive FileOps where
  | nulldev | serial | stdio
  deriving DecidableEq

def toInt (n : Nat) : Int := Int.bmod n (2^32)

def INT_MAX : Nat := 2^31-1

theorem toInt_eq {n : Nat} (h : n≤INT_MAX) : toInt n = n := by
  rw [INT_MAX] at h
  exact Int.bmod_eq_of_le (by omega) (by omega)

/-- serial_read from count on; valid n is the n-th poll of the port. None when the
caller has to wait for rx_ready. -/
def serialRead (valid : Nat → Bool) (size : Nat) : Nat → Nat → Option Nat
  | 0, count => some count
  | fuel+1, count =>
    if count < size then
      if valid count then serialRead valid size fuel (count+1)
      else if count = 0 then none else some count
    else some count

/-- serial_write from count on; accept n is the n-th poll of the port. None when the
port refuses the first byte at every poll. -/
def serialWrite (accept : Nat → Bool) (size : Nat) : Nat → Nat → Nat → Option Nat
  | 0, _, _ => none
  | fuel+1, poll, count =>
    if count < size then
      if accept poll then serialWrite accept size fuel (poll+1) (count+1)
      else if count = 0 then serialWrite accept size fuel (poll+1) count
      else some count
    else some count

def FileOps.close : FileOps → Int
  | .nulldev => 0
  | .serial => 0
  | .stdio => 0

/-- devtable[major].devnum, on a machine with the given number of serial ports. -/
def devnum (ports : Nat) : DeviceType → Nat
  | .DEV_NULL => 1
  | .DEV_SERIAL => ports

/-- The stream object and methods of a device, or none for a minor out of range. -/
def deviceOpen (ports : Nat) (major : DeviceType) (minor : Nat) :
    Option (Option Nat × FileOps) :=
  if minor≥devnum ports major then none
  else match major with
    | .DEV_NULL => some (none,.nulldev)
    | .DEV_SERIAL => some (some minor,.serial)

end TinyOS.Kernel
