import Mathlib.Data.List.Basic
import Mathlib.Logic.Function.Basic

/-! The try blocks of util.h over one exception context. A program is a tree, with the
registrations of a block only in its body; the machine keeps the C stack, which longjmp
cuts back to the setjmp of a block. The log of a run is written for the proofs alone. -/
namespace TinyOS.Exceptions

/-- The two handler lists of a block, and the loops of exception_unwind over them. -/
inductive Kind where
  | catcher | finalizer
  deriving DecidableEq

/-- Code outside the body of a block, and in one. -/
inductive Code (σ : Type) : Bool → Type where
  | done {b : Bool} : Code σ b
  | act {b : Bool} (f : σ → σ) (k : Code σ b) : Code σ b
  | branch {b : Bool} (k : σ → Code σ b) : Code σ b
  /-- raise_exception(context), and what follows if it returns. -/
  | raise {b : Bool} (k : Code σ b) : Code σ b
  | tryWith {b : Bool} (body : Code σ true) (k : Code σ b) : Code σ b
  | register (kind : Kind) (handler : Int → Code σ false) (k : Code σ true) : Code σ true

section
variable {σ : Type}

abbrev Code.FINALLY (handler : Int → Code σ false) (k : Code σ true) : Code σ true :=
  .register .finalizer handler k

abbrev Code.ON_ERROR (handler : Code σ false) (k : Code σ true) : Code σ true :=
  .register .catcher (fun _ => handler) k

end

structure HandlerFrame (σ : Type) where
  id : Nat
  handler : Int → Code σ false

structure StackFrame (σ : Type) where
  next : Option Nat
  catchers : List (HandlerFrame σ)
  finalizers : List (HandlerFrame σ)

inductive Event where
  | entered (frame : Nat) (context : Option Nat)
  | registered (frame : Nat) (kind : Kind) (handler : Nat)
  /-- The body falls through to its end. -/
  | completed (frame : Nat)
  /-- longjmp to the block. -/
  | raised (frame : Nat)
  | started (frame handler : Nat) (errcode : Int)
  | returned (frame handler : Nat)
  /-- The frame is popped; what *context is then, and whether the exception goes on. -/
  | left (frame : Nat) (context : Option Nat) (reraised : Bool)
  deriving DecidableEq

def Event.frame : Event → Nat
  | entered f _ | registered f _ _ | completed f | raised f | started f _ _ | returned f _
  | left f _ _ => f

/-- The variable __frame is in scope in the body of a block only. -/
inductive Scope : Bool → Type where
  | outside : Scope false
  | inside (frame : Nat) : Scope true

/-- The C stack, innermost first. -/
inductive Item (σ : Type) where
  | run {b : Bool} (c : Code σ b) (scope : Scope b)
  /-- An activation of exception_unwind, in one of its loops, with the handler it called. -/
  | unwind (frame : Nat) (errcode : Int) (captured : Bool) (loop : Kind) (running : Option Nat)
  /-- The call of __exc_exit_try behind the body. -/
  | exitTry
  /-- The setjmp of a block, and what follows the block. -/
  | block {b : Bool} (frame : Nat) (body : Code σ true) (k : Code σ b) (scope : Scope b)

structure Store (σ : Type) where
  user : σ
  context : Option Nat
  frames : Nat → StackFrame σ
  /-- Frames and handlers from here on are not in use yet. -/
  fresh : Nat
  log : List Event

structure Machine (σ : Type) where
  store : Store σ
  stack : List (Item σ)

section
variable {σ : Type}

def StackFrame.push (fr : StackFrame σ) (r : Kind × HandlerFrame σ) : StackFrame σ :=
  match r.1 with
  | .catcher => { fr with catchers := r.2::fr.catchers }
  | .finalizer => { fr with finalizers := r.2::fr.finalizers }

def Store.emit (s : Store σ) (e : Event) : Store σ := { s with log := s.log++[e] }

def Store.setFrame (s : Store σ) (f : Nat) (fr : StackFrame σ) : Store σ :=
  { s with frames := Function.update s.frames f fr }

@[simp] theorem Store.setFrame_self (s : Store σ) (f : Nat) (fr : StackFrame σ) :
    (s.setFrame f fr).frames f = fr := Function.update_self ..

theorem Store.setFrame_of_ne (s : Store σ) {f g : Nat} (fr : StackFrame σ) (h : g≠f) :
    (s.setFrame f fr).frames g = s.frames g := Function.update_of_ne h ..

def excPushFrame (s : Store σ) (frame : Nat) : Store σ :=
  { s.setFrame frame { s.frames frame with next := s.context } with context := some frame }

def backTo (f : Nat) : List (Item σ) → Option (List (Item σ))
  | [] => none
  | .block g body k scope::K => if g = f then some (.block g body k scope::K) else backTo f K
  | _::K => backTo f K

def exceptionUnwind (s : Store σ) (errcode : Int) (K : List (Item σ)) : Option (Machine σ) :=
  s.context.map fun frame => ⟨s,.unwind frame errcode false .catcher none::K⟩

def excTry (s : Store σ) (errcode : Int) (body : Code σ true) (K : List (Item σ)) :
    Option (Machine σ) :=
  if errcode = 0 then s.context.map fun frame => ⟨s,.run body (.inside frame)::.exitTry::K⟩
  else exceptionUnwind s errcode K

def excExitTry (s : Store σ) (K : List (Item σ)) : Option (Machine σ) :=
  s.context.bind fun frame => exceptionUnwind
    ((s.setFrame frame { s.frames frame with catchers := [] }).emit (.completed frame)) 0 K

/-- The setjmp of the block returns once more. -/
def longjmp (s : Store σ) (f : Nat) (value : Int) (K : List (Item σ)) : Option (Machine σ) :=
  match backTo f K with
  | some (.block g body k scope::K) => excTry (s.emit (.raised f)) value body
      (.block g body k scope::K)
  | _ => none

def raiseException (s : Store σ) (K : List (Item σ)) : Option (Machine σ) :=
  match s.context with
  | none => some ⟨s,K⟩
  | some f => longjmp s f 1 K

/-- One round of a loop of exception_unwind. -/
def callHandler (s : Store σ) (f : Nat) (fr : StackFrame σ) (errcode : Int) (captured : Bool)
    (loop : Kind) (h : HandlerFrame σ) (K : List (Item σ)) : Machine σ :=
  ⟨(s.setFrame f fr).emit (.started f h.id errcode),
    .run (h.handler errcode) .outside::.unwind f errcode captured loop (some h.id)::K⟩

/-- What exception_unwind does behind its loops. -/
def popFrame (s : Store σ) (f : Nat) (errcode : Int) (captured : Bool) (K : List (Item σ)) :
    Option (Machine σ) :=
  let reraised := decide (errcode≠0)&&!captured
  let s := { s with context := (s.frames f).next }
  let s := s.emit (.left f s.context reraised)
  if reraised then raiseException s K else some ⟨s,K⟩

def runFinalizers (s : Store σ) (f : Nat) (errcode : Int) (captured : Bool)
    (K : List (Item σ)) : Option (Machine σ) :=
  match (s.frames f).finalizers with
  | fin::rest => some (callHandler s f { s.frames f with finalizers := rest } errcode captured
      .finalizer fin K)
  | [] => popFrame s f errcode captured K

def runCatchers (s : Store σ) (f : Nat) (errcode : Int) (captured : Bool)
    (K : List (Item σ)) : Option (Machine σ) :=
  match (s.frames f).catchers with
  | c::rest => some (callHandler s f { s.frames f with catchers := rest } errcode true
      .catcher c K)
  | [] => runFinalizers s f errcode captured K

def enterTry {b : Bool} (s : Store σ) (body : Code σ true) (k : Code σ b) (scope : Scope b)
    (K : List (Item σ)) : Option (Machine σ) :=
  let f := s.fresh
  let s := { s.setFrame f ⟨none,[],[]⟩ with fresh := f+1 }
  let s := s.emit (.entered f s.context)
  excTry (excPushFrame s f) 0 body (.block f body k scope::K)

def registerHandler (s : Store σ) (f : Nat) (kind : Kind) (handler : Int → Code σ false) :
    Store σ :=
  { s.setFrame f ((s.frames f).push (kind,⟨s.fresh,handler⟩)) with fresh := s.fresh+1 }.emit
    (.registered f kind s.fresh)

def stepCode (s : Store σ) (K : List (Item σ)) : {b : Bool} → Code σ b → Scope b →
    Option (Machine σ)
  | _, .done, _ => some ⟨s,K⟩
  | _, .act f k, scope => some ⟨{ s with user := f s.user },.run k scope::K⟩
  | _, .branch k, scope => some ⟨s,.run (k s.user) scope::K⟩
  | _, .raise k, scope => raiseException s (.run k scope::K)
  | _, .tryWith body k, scope => enterTry s body k scope K
  | _, .register kind handler k, .inside f =>
    some ⟨registerHandler s f kind handler,.run k (.inside f)::K⟩

def step : Machine σ → Option (Machine σ)
  | ⟨_,[]⟩ => none
  | ⟨s,.run c scope::K⟩ => stepCode s K c scope
  | ⟨s,.unwind f errcode captured loop (some h)::K⟩ =>
    some ⟨s.emit (.returned f h),.unwind f errcode captured loop none::K⟩
  | ⟨s,.unwind f errcode captured .catcher none::K⟩ => runCatchers s f errcode captured K
  | ⟨s,.unwind f errcode captured .finalizer none::K⟩ => runFinalizers s f errcode captured K
  | ⟨s,.exitTry::K⟩ => excExitTry s K
  | ⟨s,.block _ _ k scope::K⟩ => some ⟨s,.run k scope::K⟩

def start (main : Code σ false) (user : σ) : Machine σ :=
  ⟨⟨user,none,fun _ => ⟨none,[],[]⟩,0,[]⟩,[.run main .outside]⟩

end

end TinyOS.Exceptions
