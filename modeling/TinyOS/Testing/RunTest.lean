import TinyOS.Lib.Transition
import Mathlib.Tactic.Set

/-! The test runner: a tree of suites is run to the end, whatever its tests do, each test once
for every machine that it is made for, and what is printed in between is indented. -/
namespace TinyOS.Testing.Runner

section Output

abbrev INDENT_STACK_MAX : Nat := 128

abbrev INDENT_STEP : Nat := 8

/-- What is printed so far, with the variables of MSG; the stack has its top first. -/
structure Output where
  indentStack : List Nat
  indentPos : Nat
  currentPos : Nat
  emitIndent : Bool
  stderr : List Char

namespace Output

def push (o : Output) (step : Nat) : Option Output :=
  if o.indentStack.length < INDENT_STACK_MAX then
    some { o with indentStack := o.indentPos::o.indentStack, indentPos := o.indentPos+step }
  else none

def INDENT (o : Output) : Option Output := o.push INDENT_STEP

def TAB (o : Output) : Option Output := o.push o.currentPos

def UNINDENT (o : Output) : Option Output :=
  match o.indentStack with
  | [] => none
  | pos::stack => some { o with indentStack := stack, indentPos := pos }

def newline : Char := Char.ofNat 10

/-- The loop of MSG on a character. -/
def put (o : Output) (c : Char) : Output :=
  let spaces := if o.emitIndent then List.replicate o.indentPos (Char.ofNat 32) else []
  { o with
    emitIndent := c == newline
    currentPos := if c = newline then 0 else o.currentPos+1
    stderr := o.stderr++spaces++[c] }

def MSG (o : Output) (buffer : String) : Output := buffer.toList.foldl put o

end Output

end Output

section Tests

structure Info where
  name : String
  description : String
  minimumTerminals : Nat
  minimumCores : Nat

inductive Test where
  | noFunc (info : Info)
  | bareFunc (info : Info)
  | bootFunc (info : Info)
  | suiteFunc (info : Info) (suite : List Test)

inductive Colour where
  | WHITE
  | YELLOW
  | CYAN
  | GREEN
  | RED

structure Args where
  verbose : Nat
  fork : Bool
  coreList : List Nat
  termList : List Nat
  COLOR : String → Colour → String
  strsignal : Nat → String

/-- How the process of a test ends: procfunc returns, with FLAG_FAILURE or not, or it does not. -/
inductive Ending where
  | returns (flagFailure : Bool)
  | exits (code : Nat)
  | dies (signo : Nat)
  deriving DecidableEq

structure Execution where
  ending : Ending
  timedOut : Bool

inductive Status where
  | exited (code : Nat)
  | signaled (signo : Nat)
  deriving DecidableEq

abbrev SIGABRT : Nat := 6

abbrev Run := String × Option (Nat × Nat)

structure State where
  out : Output
  runs : List Run

def State.MSG (s : State) (buffer : String) : State := { s with out := s.out.MSG buffer }

variable (args : Args) (perform : Nat → Execution)

def Ending.status : Ending → Status
  | .returns flagFailure => if flagFailure then .signaled SIGABRT else .exited 129
  | .exits code => .exited (code%256)
  | .dies signo => .signaled signo

def executeFork (x : Execution) (s : State) : Option (State × Status) :=
  some (if x.timedOut then s.MSG "Test timed out\n" else s,x.ending.status)

/-- Without fork the program ends with a test that does not return, or fails. -/
def executeNofork (x : Execution) (s : State) : Option (State × Status) :=
  match x.ending with
  | .returns false => some (s,.exited 129)
  | _ => none

/-- The next execution does what perform says. -/
def execute (run : Run) (s : State) : Option (State × Status) :=
  let x := perform s.runs.length
  let s := { s with runs := s.runs++[run] }
  if args.fork then executeFork x s else executeNofork x s

def padRight (n : Nat) (text : String) : String :=
  text++String.ofList (List.replicate (n-text.length) (Char.ofNat 32))

def padLeft (n : Nat) (text : String) : String :=
  String.ofList (List.replicate (n-text.length) (Char.ofNat 32))++text

/-- The result of an execution, and what is said of a crash. -/
def judge : State × Status → State × Bool
  | (s,.exited code) => (s,code == 129)
  | (s,.signaled signo) =>
    (s.MSG ("Test crashed, signal="++toString signo++" ("++args.strsignal signo++")\n"),false)

def verdict (result : Bool) : String :=
  if result then args.COLOR "ok" .GREEN else args.COLOR "*** FAILED ***" .RED

def skipped (test : Info) (ncores nterm : Nat) : Bool :=
  !(decide (test.minimumCores≤ncores) && decide (test.minimumTerminals≤nterm))

def runBootTest (test : Info) (ncores nterm : Nat) (s : State) : Option (State × Bool) :=
  (if skipped test ncores nterm then some (s,true)
    else (execute args perform (test.name,some (ncores,nterm)) s).map (judge args)).map
    fun (s,result) =>
      let s := s.MSG (padRight 52 (args.COLOR test.name .WHITE)++" [cores="++
        padLeft 2 (toString ncores)++",term="++toString nterm++"]:")
      (s.MSG (" "++(if skipped test ncores nterm then args.COLOR "skipped" .CYAN
        else verdict args result)++"\n"),result)

def runBootTests (test : Info) : List (Nat × Nat) → State → Bool → Option (State × Bool)
  | [], s, result => some (s,result)
  | (ncores,nterm)::machines, s, result =>
    (runBootTest args perform test ncores nterm s).bind fun (s,r) =>
      runBootTests test machines s (result && r)

def report (test : Info) : State × Bool → State × Bool
  | (s,result) => ((s.MSG (padRight 70 (args.COLOR test.name .WHITE)++":")).MSG
      (" "++verdict args result++"\n"),result)

def describe (test : Info) : State × Bool → Option (State × Bool)
  | (s,result) =>
    if result = false ∧ 0 < args.verbose then
      s.out.INDENT.bind fun o => (o.MSG "description: ").TAB.bind fun o =>
        (o.MSG (test.description++"\n")).UNINDENT.bind fun o => o.UNINDENT.map fun o =>
          ({ s with out := o },result)
    else some (s,result)

def runSuite (name : String) (loop : State → Option (State × Nat × Nat)) (s : State) :
    Option (State × Bool) :=
  let s := s.MSG ("running suite: "++args.COLOR name .YELLOW++"\n")
  s.out.INDENT.bind fun o => (loop { s with out := o }).bind fun (s,numberOfTests,successful) =>
    let s := s.MSG ("suite "++args.COLOR name .YELLOW++" completed [tests="++
      toString numberOfTests++", failed="++toString (numberOfTests-successful)++"]\n")
    s.out.UNINDENT.map fun o => ({ s with out := o },numberOfTests == successful)

mutual

def runTest : Test → State → Option (State × Bool)
  | .noFunc _, s => some (s,true)
  | .bareFunc test, s => ((execute args perform (test.name,none) s).map fun x =>
      report args test (judge args x)).bind (describe args test)
  | .bootFunc test, s => (runBootTests args perform test
      (args.coreList.flatMap fun ncores => args.termList.map fun nterm => (ncores,nterm)) s true).bind
        (describe args test)
  | .suiteFunc test suite, s => ((runSuite args test.name (runTests suite 0 0) s).map
      (report args test)).bind (describe args test)

def runTests : List Test → Nat → Nat → State → Option (State × Nat × Nat)
  | [], numberOfTests, successful, s => some (s,numberOfTests,successful)
  | t::suite, numberOfTests, successful, s => (runTest t s).bind fun (s,testres) =>
      runTests suite (numberOfTests+1) (if testres then successful+1 else successful) s

end

def Test.info : Test → Info
  | .noFunc info | .bareFunc info | .bootFunc info | .suiteFunc info _ => info

mutual

def findTest (name : String) : Test → Option Test
  | .suiteFunc test suite =>
    if name = test.name then some (.suiteFunc test suite) else findInSuite name suite
  | t => if name = t.info.name then some t else none

def findInSuite (name : String) : List Test → Option Test
  | [] => none
  | t::suite => match findTest name t with
    | some found => some found
    | none => findInSuite name suite

end

def runProgram : List Test → State → Option State
  | [], s => some s
  | t::tests, s => (runTest args perform t s).bind fun (s,_) => runProgram tests s

end Tests

/-! What is printed leaves the indentation as it was. -/

namespace Output
variable {o o1 o2 : Output}

def AtLine (o : Output) : Prop := o.emitIndent = true ∧ o.currentPos = 0

structure Prints (o o' : Output) : Prop where
  indentStack : o'.indentStack = o.indentStack
  indentPos : o'.indentPos = o.indentPos
  stderr : o.stderr<+:o'.stderr

structure Lines (o o' : Output) : Prop extends Prints o o' where
  line : o.AtLine → o'.AtLine

theorem Prints.refl (o : Output) : Prints o o := ⟨rfl,rfl,List.prefix_refl _⟩

theorem Prints.trans (h1 : Prints o o1) (h2 : Prints o1 o2) : Prints o o2 :=
  ⟨h2.indentStack.trans h1.indentStack,h2.indentPos.trans h1.indentPos,h1.stderr.trans h2.stderr⟩

theorem Lines.refl (o : Output) : Lines o o := ⟨.refl o,id⟩

theorem Lines.trans (h1 : Lines o o1) (h2 : Lines o1 o2) : Lines o o2 :=
  ⟨h1.toPrints.trans h2.toPrints,h2.line ∘ h1.line⟩

theorem prints_put (o : Output) (c : Char) : Prints o (o.put c) := by
  refine ⟨rfl,rfl,?_⟩
  simp only [put, List.append_assoc]
  exact List.prefix_append _ _

theorem prints_MSG (o : Output) (buffer : String) : Prints o (o.MSG buffer) := by
  unfold MSG
  generalize buffer.toList = cs
  induction cs generalizing o with
  | nil => exact .refl o
  | cons c cs ih => exact (prints_put o c).trans (ih (o.put c))

theorem MSG_atLine (o : Output) (buffer : String) : (o.MSG (buffer++"\n")).AtLine := by
  have hl : ("\n" : String).toList = [newline] := rfl
  simp only [MSG, String.toList_append, hl, List.foldl_append, List.foldl_cons, List.foldl_nil]
  exact ⟨by simp [put],by simp [put]⟩

theorem lines_MSG (o : Output) (buffer : String) : Lines o (o.MSG (buffer++"\n")) :=
  ⟨prints_MSG o _,fun _ => MSG_atLine o buffer⟩

theorem push_prints (h : o.indentStack.length < INDENT_STACK_MAX) (step : Nat) :
    ∃ o1, o.push step = some o1 ∧ o1.indentStack.length = o.indentStack.length+1 ∧
      o1.indentPos = o.indentPos+step ∧ (o.AtLine → o1.AtLine) ∧ ∀ o2, Prints o1 o2 →
        ∃ o3, o2.UNINDENT = some o3 ∧ Prints o o3 ∧ (o2.AtLine → o3.AtLine) := by
  refine ⟨{ o with indentStack := o.indentPos::o.indentStack, indentPos := o.indentPos+step },
    by rw [push, if_pos h],rfl,rfl,id,fun o2 h2 => ?_⟩
  have hstack := h2.indentStack
  refine ⟨{ o2 with indentStack := o.indentStack, indentPos := o.indentPos },?_,⟨rfl,rfl,h2.stderr⟩,
    id⟩
  simp only at hstack
  simp only [UNINDENT, hstack]

end Output

section Runs
open Output

variable (args : Args) (perform : Nat → Execution)

def goesOn (n k : Nat) : Bool :=
  (List.range' n k).all fun i => args.fork || decide ((perform i).ending = .returns false)

def allOk (n k : Nat) : Bool :=
  (List.range' n k).all fun i => decide ((perform i).ending.status = .exited 129)

theorem goesOn_add (n j k : Nat) :
    goesOn args perform n (j+k) = (goesOn args perform n j && goesOn args perform (n+j) k) := by
  rw [goesOn, ← List.range'_append_1, List.all_append]
  rfl

theorem allOk_add (n j k : Nat) :
    allOk perform n (j+k) = (allOk perform n j && allOk perform (n+j) k) := by
  rw [allOk, ← List.range'_append_1, List.all_append]
  rfl

/-- With room for need more indents, f makes the executions runs and prints whole lines; val
says what its value tells of whether they all were ok. It fails where one ends the runner. -/
def Executes {β : Type*} (need : Nat) (runs : List Run) (f : State → Option (State × β))
    (val : Bool → β → Prop) : Prop :=
  ∀ s, s.out.indentStack.length+need ≤ INDENT_STACK_MAX →
    if goesOn args perform s.runs.length runs.length then
      ∃ s' v, f s = some (s',v) ∧ val (allOk perform s.runs.length runs.length) v ∧
        s'.runs = s.runs++runs ∧ Lines s.out s'.out
    else f s = none

section Compose
variable {args perform} {β γ : Type*} {need need' : Nat} {runs runs' : List Run}
variable {f : State → Option (State × β)} {val : Bool → β → Prop}

theorem Executes.mono (h : Executes args perform need runs f val) (hn : need ≤ need') :
    Executes args perform need' runs f val :=
  fun s hs => h s (Nat.le_trans (Nat.add_le_add_left hn _) hs)

theorem Executes.weaken (h : Executes args perform need runs f val) {val' : Bool → β → Prop}
    (hv : ∀ b v, val b v → val' b v) : Executes args perform need runs f val' := by
  intro s hs
  have h1 := h s hs
  split at h1
  · rename_i hgo
    obtain ⟨s1,v,hf,hval,hrest⟩ := h1
    rw [if_pos hgo]
    exact ⟨s1,v,hf,hv _ v hval,hrest⟩
  · rename_i hgo
    rw [if_neg hgo]
    exact h1

theorem Executes.bind (h : Executes args perform need runs f val)
    {g : State × β → Option (State × γ)} {val' : Bool → Bool → γ → Prop}
    (hg : ∀ b v, val b v → Executes args perform need runs' (fun s => g (s,v)) (val' b)) :
    Executes args perform need (runs++runs') (fun s => (f s).bind g) fun b w =>
      ∃ b1 b2, b = (b1 && b2) ∧ val' b1 b2 w := by
  intro s hs
  have h1 := h s hs
  rw [List.length_append, goesOn_add, allOk_add]
  split at h1
  · rename_i hgo
    obtain ⟨s1,v,hf,hv,hruns,hlines⟩ := h1
    have h2 := hg _ v hv s1 (by rw [hlines.indentStack]; exact hs)
    rw [hruns, List.length_append] at h2
    simp only [hgo, Bool.true_and, hf, Option.bind_some]
    split at h2
    · rename_i hgo2
      obtain ⟨s2,w,hg2,hw,hruns2,hlines2⟩ := h2
      rw [if_pos hgo2]
      exact ⟨s2,w,hg2,⟨_,_,rfl,hw⟩,by rw [hruns2, List.append_assoc],hlines.trans hlines2⟩
    · rename_i hgo2
      rw [if_neg hgo2]
      exact h2
  · rename_i hgo
    simp only [hgo, Bool.false_and, Bool.false_eq_true, if_false, h1, Option.bind_none]

theorem Executes.after (h : Executes args perform need runs f val)
    {g : State × β → Option (State × γ)} {val' : Bool → γ → Prop}
    (hg : ∀ s b v, s.out.indentStack.length+need ≤ INDENT_STACK_MAX → val b v →
      ∃ s' w, g (s,v) = some (s',w) ∧ val' b w ∧ s'.runs = s.runs ∧ Lines s.out s'.out) :
    Executes args perform need runs (fun s => (f s).bind g) val' := by
  intro s hs
  have h1 := h s hs
  split at h1
  · rename_i hgo
    obtain ⟨s1,v,hf,hv,hruns,hlines⟩ := h1
    obtain ⟨s2,w,hg2,hw,hruns2,hlines2⟩ := hg s1 _ v (by rw [hlines.indentStack]; exact hs) hv
    rw [if_pos hgo]
    simp only [hf, Option.bind_some]
    exact ⟨s2,w,hg2,hw,hruns2.trans hruns,hlines.trans hlines2⟩
  · rename_i hgo
    rw [if_neg hgo]
    simp only [h1, Option.bind_none]

theorem Executes.map (h : Executes args perform need runs f val) {g : State × β → State × γ}
    {val' : Bool → γ → Prop} (hg : ∀ s b v, val b v → val' b (g (s,v)).2 ∧
      (g (s,v)).1.runs = s.runs ∧ Lines s.out (g (s,v)).1.out) :
    Executes args perform need runs (fun s => (f s).map g) val' := by
  simp only [Option.map_eq_bind]
  refine h.after fun s b v _ hv => ?_
  exact ⟨_,_,rfl,hg s b v hv⟩

end Compose

theorem executes_none {β : Type*} (need : Nat) {v : β} {val : Bool → β → Prop} (hv : val true v) :
    Executes args perform need [] (fun s => some (s,v)) val :=
  fun s _ => by
    rw [if_pos (show goesOn args perform s.runs.length ([] : List Run).length = true from rfl)]
    exact ⟨s,v,rfl,hv,(List.append_nil _).symm,.refl _⟩

theorem lines_judge (s : State) (status : Status) :
    (judge args (s,status)).1.runs = s.runs ∧ Lines s.out (judge args (s,status)).1.out := by
  cases status with
  | exited code => exact ⟨rfl,.refl _⟩
  | signaled signo =>
    refine ⟨rfl,?_⟩
    have hl : ")\n" = ")"++"\n" := rfl
    simp only [judge, State.MSG, hl, ← String.append_assoc]
    exact lines_MSG _ _

theorem judge_result (s : State) (status : Status) :
    (judge args (s,status)).2 = decide (status = .exited 129) := by
  cases status with
  | exited code =>
    rw [Bool.eq_iff_iff]
    simp [judge]
  | signaled signo => simp [judge]

theorem executes_execute (run : Run) : Executes args perform 0 [run]
    (fun s => (execute args perform run s).map (judge args)) fun b v => v = b := by
  intro s _
  have hgo : goesOn args perform s.runs.length [run].length =
      (args.fork || decide ((perform s.runs.length).ending = .returns false)) := by
    simp [goesOn]
  have hok : allOk perform s.runs.length [run].length =
      decide ((perform s.runs.length).ending.status = .exited 129) := by
    simp [allOk]
  rw [hgo, hok]
  simp only [execute]
  have hdone : ∀ (s1 : State) status, s1.runs = s.runs++[run] → Lines s.out s1.out → ∃ s' v,
      (some (s1,status)).map (judge args) = some (s',v) ∧ v = decide (status = .exited 129) ∧
        s'.runs = s.runs++[run] ∧ Lines s.out s'.out := by
    intro s1 status hruns hlines
    obtain ⟨h1,h2⟩ := lines_judge args s1 status
    exact ⟨_,_,rfl,judge_result args s1 status,h1.trans hruns,hlines.trans h2⟩
  by_cases hf : args.fork = true
  · rw [if_pos (by simp [hf]), if_pos hf]
    refine hdone _ _ ?_ ?_
    · split <;> rfl
    · split
      · have hl : "Test timed out\n" = "Test timed out"++"\n" := rfl
        rw [hl]
        exact lines_MSG _ _
      · exact .refl _
  · rw [if_neg hf, executeNofork]
    cases he : (perform s.runs.length).ending with
    | returns failed =>
      cases failed with
      | true => simp [hf]
      | false =>
        rw [if_pos (by simp)]
        exact hdone { s with runs := s.runs++[run] } (.exited 129) rfl (.refl _)
    | exits code => simp [hf]
    | dies signo => simp [hf]

def bootRuns (test : Info) (machine : Nat × Nat) : List Run :=
  if skipped test machine.1 machine.2 then [] else [(test.name,some machine)]

theorem executes_runBootTest (test : Info) (ncores nterm : Nat) : Executes args perform 0
    (bootRuns test (ncores,nterm)) (runBootTest args perform test ncores nterm) fun b v => v = b := by
  have hperform : Executes args perform 0 (bootRuns test (ncores,nterm))
      (fun s => if skipped test ncores nterm then some (s,true)
        else (execute args perform (test.name,some (ncores,nterm)) s).map (judge args))
      fun b v => v = b := by
    unfold bootRuns
    split
    · exact executes_none args perform 0 rfl
    · exact executes_execute args perform _
  refine hperform.map fun s b v hv => ⟨hv,rfl,?_⟩
  refine ⟨(prints_MSG _ _).trans (prints_MSG _ _),fun _ => ?_⟩
  exact MSG_atLine _ _

theorem executes_runBootTests (test : Info) (machines : List (Nat × Nat)) (result : Bool) :
    Executes args perform 0 (machines.flatMap (bootRuns test))
      (fun s => runBootTests args perform test machines s result)
      fun b v => v = (result && b) := by
  induction machines generalizing result with
  | nil => exact executes_none args perform 0 (by simp)
  | cons machine machines ih =>
    have hrest : ∀ b v : Bool, v = b → Executes args perform 0 (machines.flatMap (bootRuns test))
        (fun s => runBootTests args perform test machines s (result && v))
        fun b2 w => w = (result && b && b2) := by
      intro b v hv
      rw [hv]
      exact ih (result && b)
    refine ((executes_runBootTest args perform test machine.1 machine.2).bind
      (g := fun x => runBootTests args perform test machines x.1 (result && x.2)) hrest).weaken ?_
    rintro b w ⟨b1,b2,rfl,hw⟩
    rw [hw, Bool.and_assoc]

theorem describe_after {runs : List Run} {f : State → Option (State × Bool)} {need : Nat}
    (h : Executes args perform need runs f fun b v => v = b) (hn : 2 ≤ need) (test : Info) :
    Executes args perform need runs (fun s => (f s).bind (describe args test)) fun b v => v = b := by
  refine h.after fun s b v hs hv => ?_
  simp only [describe]
  split
  · simp only [INDENT_STACK_MAX] at hs
    obtain ⟨o1,h1,hlen1,-,hline1,hback1⟩ := push_prints (o := s.out)
      (by simp only [INDENT_STACK_MAX]; omega) INDENT_STEP
    set o2 := o1.MSG "description: " with ho2
    have hp2 : Prints o1 o2 := prints_MSG o1 _
    obtain ⟨o3,h3,hlen3,-,-,hback3⟩ := push_prints (o := o2)
      (by rw [hp2.indentStack, hlen1]; simp only [INDENT_STACK_MAX]; omega) o2.currentPos
    obtain ⟨o4,h4,hp4,hline4⟩ := hback3 (o3.MSG (test.description++"\n")) (prints_MSG o3 _)
    obtain ⟨o5,h5,hp5,hline5⟩ := hback1 o4 (hp2.trans hp4)
    refine ⟨{ s with out := o5 },v,?_,hv,rfl,hp5,fun _ => hline5 (hline4 (MSG_atLine o3 _))⟩
    rw [INDENT, h1, Option.bind_some]
    simp only [← ho2, TAB, h3, Option.bind_some, h4, h5, Option.map_some]
  · exact ⟨s,v,rfl,hv,rfl,.refl _⟩

theorem report_after {runs : List Run} {f : State → Option (State × Bool)} {need : Nat}
    (h : Executes args perform need runs f fun b v => v = b) (test : Info) :
    Executes args perform need runs (fun s => (f s).map (report args test)) fun b v => v = b :=
  h.map fun _ _ _ hv => ⟨hv,rfl,(prints_MSG _ _).trans (prints_MSG _ _),fun _ => MSG_atLine _ _⟩

def Counted (numberOfTests successful n : Nat) (b : Bool) (v : Nat × Nat) : Prop :=
  v.1 = numberOfTests+n ∧ v.2 ≤ successful+n ∧ (b = true ↔ v.2 = successful+n)

theorem executes_runSuite (name : String) {loop : State → Option (State × Nat × Nat)} {need n : Nat}
    {runs : List Run} (h : Executes args perform need runs loop (Counted 0 0 n)) :
    Executes args perform (need+1) runs (runSuite args name loop) fun b v => v = b := by
  intro s hs
  set s1 := s.MSG ("running suite: "++args.COLOR name .YELLOW++"\n") with hs1
  have hp1 : Lines s.out s1.out := lines_MSG _ _
  simp only [INDENT_STACK_MAX] at hs
  obtain ⟨o2,h2,hlen2,-,hline2,hback2⟩ := push_prints (o := s1.out)
    (by rw [hp1.indentStack]; simp only [INDENT_STACK_MAX]; omega) INDENT_STEP
  have hloop := h { s1 with out := o2 } (by
    simp only [hlen2, hp1.indentStack, INDENT_STACK_MAX]
    omega)
  change if goesOn args perform s.runs.length runs.length then _ else _ at hloop
  simp only [runSuite, ← hs1, INDENT, h2, Option.bind_some]
  split at hloop
  · rename_i hgo
    obtain ⟨s3,⟨n3,k3⟩,hl,⟨hn3,hk3,hok⟩,hruns,hlines⟩ := hloop
    set text := "suite "++args.COLOR name .YELLOW++" completed [tests="++toString n3++
      ", failed="++toString (n3-k3) with htext
    have hline3 : (s3.out.MSG (text++"]\n")).AtLine := by
      have hl : "]\n" = "]"++"\n" := rfl
      rw [hl, ← String.append_assoc]
      exact MSG_atLine _ _
    obtain ⟨o4,h4,hp4,hline4⟩ := hback2 _ (hlines.toPrints.trans (prints_MSG s3.out (text++"]\n")))
    rw [if_pos hgo]
    simp only [hl, Option.bind_some, State.MSG, ← htext, h4, Option.map_some]
    refine ⟨_,_,rfl,?_,hruns,hp1.toPrints.trans hp4,fun _ => hline4 hline3⟩
    rw [Bool.eq_iff_iff, beq_iff_eq]
    exact ⟨fun he => hok.mpr (he.symm.trans hn3),fun hb => hn3.trans (hok.mp hb).symm⟩
  · rename_i hgo
    rw [if_neg hgo, hloop, Option.bind_none]

def machines : List (Nat × Nat) :=
  args.coreList.flatMap fun ncores => args.termList.map fun nterm => (ncores,nterm)

mutual

def runsOf : Test → List Run
  | .noFunc _ => []
  | .bareFunc test => [(test.name,none)]
  | .bootFunc test => (machines args).flatMap (bootRuns test)
  | .suiteFunc _ suite => runsOfSuite suite

def runsOfSuite : List Test → List Run
  | [] => []
  | t::suite => runsOf t++runsOfSuite suite

end

mutual

def height : Test → Nat
  | .suiteFunc _ suite => heightOfSuite suite+1
  | _ => 0

def heightOfSuite : List Test → Nat
  | [] => 0
  | t::suite => max (height t) (heightOfSuite suite)

end

mutual

theorem executes_runTest (t : Test) : Executes args perform (height t+2) (runsOf args t)
    (runTest args perform t) fun b v => v = b := by
  cases t with
  | noFunc test => exact executes_none args perform _ rfl
  | bareFunc test =>
    have h := report_after args perform (executes_execute args perform (test.name,none)) test
    simp only [Option.map_map] at h
    exact describe_after args perform (h.mono (Nat.zero_le _)) (Nat.le_refl 2) test
  | bootFunc test =>
    have h : Executes args perform 0 (runsOf args (.bootFunc test))
        (fun s => runBootTests args perform test (machines args) s true) fun b v => v = b :=
      (executes_runBootTests args perform test (machines args) true).weaken fun b v hv => by
        rw [hv, Bool.true_and]
    exact describe_after args perform (h.mono (Nat.zero_le _)) (Nat.le_refl 2) test
  | suiteFunc test suite =>
    have h := report_after args perform
      (executes_runSuite args perform test.name (executes_runTests suite 0 0)) test
    refine describe_after args perform (h.mono ?_) (by simp [height]) test
    simp only [height]
    omega

theorem executes_runTests (suite : List Test) (numberOfTests successful : Nat) :
    Executes args perform (heightOfSuite suite+2) (runsOfSuite args suite)
      (runTests args perform suite numberOfTests successful)
      (Counted numberOfTests successful suite.length) := by
  cases suite with
  | nil => exact executes_none args perform _ ⟨rfl,Nat.le_refl _,by simp⟩
  | cons t suite =>
    have ht := (executes_runTest t).mono
      (show height t+2 ≤ heightOfSuite (t::suite)+2 from
        Nat.add_le_add_right (Nat.le_max_left _ _) 2)
    have hrest : ∀ b v : Bool, v = b → Executes args perform (heightOfSuite (t::suite)+2)
        (runsOfSuite args suite) (fun s => runTests args perform suite (numberOfTests+1)
          (if v then successful+1 else successful) s)
        (Counted (numberOfTests+1) (if b then successful+1 else successful) suite.length) := by
      intro b v hv
      rw [hv]
      exact (executes_runTests suite _ _).mono (Nat.add_le_add_right (Nat.le_max_right _ _) 2)
    refine (ht.bind (g := fun x => runTests args perform suite (numberOfTests+1)
      (if x.2 then successful+1 else successful) x.1) hrest).weaken ?_
    rintro b w ⟨b1,b2,rfl,hn,hk,hok⟩
    refine ⟨by rw [hn, List.length_cons]; omega,?_,?_⟩
    · cases b1 <;> simp_all <;> omega
    · cases b1 <;> simp_all <;> omega

end

theorem goesOn_iff {n k : Nat} : goesOn args perform n k = true ↔
    args.fork = true ∨ ∀ i<k, (perform (n+i)).ending = .returns false := by
  simp only [goesOn, List.all_eq_true, List.mem_range'_1, Bool.or_eq_true, decide_eq_true_eq]
  constructor
  · intro h
    by_cases hf : args.fork = true
    · exact Or.inl hf
    · exact Or.inr fun i hi => (h (n+i) ⟨Nat.le_add_right _ _,by omega⟩).resolve_left hf
  · rintro (hf | h) i hi
    · exact Or.inl hf
    · obtain ⟨j,rfl⟩ := Nat.exists_eq_add_of_le hi.1
      exact Or.inr (h j (by omega))

theorem allOk_iff {n k : Nat} : allOk perform n k = true ↔
    ∀ i<k, (perform (n+i)).ending.status = .exited 129 := by
  simp only [allOk, List.all_eq_true, List.mem_range'_1, decide_eq_true_eq]
  constructor
  · exact fun h i hi => h (n+i) ⟨Nat.le_add_right _ _,by omega⟩
  · intro h i hi
    obtain ⟨j,rfl⟩ := Nat.exists_eq_add_of_le hi.1
    exact h j (by omega)

/-- run_test makes the executions of its tree once each and in order, whatever they do, and
returns whether they all were ok; without fork it ends the program with the first that
does not return or fails. -/
theorem run_test_result {t : Test} {s : State}
    (hroom : s.out.indentStack.length+(height t+2) ≤ INDENT_STACK_MAX) :
    ((args.fork = true ∨ ∀ i < (runsOf args t).length,
        (perform (s.runs.length+i)).ending = .returns false) →
      ∃ s' result, runTest args perform t s = some (s',result) ∧
        (result = true ↔ ∀ i < (runsOf args t).length,
          (perform (s.runs.length+i)).ending.status = .exited 129) ∧
        s'.runs = s.runs++runsOf args t ∧ Lines s.out s'.out) ∧
    (args.fork = false → (∃ i < (runsOf args t).length,
        (perform (s.runs.length+i)).ending≠.returns false) →
      runTest args perform t s = none) := by
  have h := executes_runTest args perform t s hroom
  constructor
  · intro hgo
    rw [if_pos ((goesOn_iff args perform).mpr hgo)] at h
    obtain ⟨s',result,hrun,hresult,hruns,hlines⟩ := h
    exact ⟨s',result,hrun,by rw [hresult, allOk_iff],hruns,hlines⟩
  · rintro hf ⟨i,hi,hne⟩
    rwa [if_neg] at h
    intro hgo
    rcases (goesOn_iff args perform).mp hgo with hfork | hret
    · simp [hf] at hfork
    · exact hne (hret i hi)

def internal : Test := .suiteFunc ⟨"internal",
    "A suite of internal tests, testing the test framework itself.",0,1⟩
  [.bareFunc ⟨"internal_success","A test that succeeds.",0,1⟩,
    .bareFunc ⟨"internal_failure","A test that fails by assertion.",0,1⟩,
    .bareFunc ⟨"internal_timeout","A test that fails by timeout.",0,1⟩,
    .bareFunc ⟨"internal_skip","A test that is skipped",4294967295,1⟩]

def internalEnds : Nat → Execution
  | 1 => ⟨.returns true,false⟩
  | 2 => ⟨.dies 15,true⟩
  | _ => ⟨.returns false,false⟩

def plainArgs : Args := ⟨0,true,[1],[0],fun text _ => text,toString⟩

/-- With fork the program runs all the tests that were asked for. -/
theorem run_program_result (hf : args.fork = true) {tests : List Test} {s : State}
    (hroom : ∀ t∈tests, s.out.indentStack.length+(height t+2) ≤ INDENT_STACK_MAX) :
    ∃ s', runProgram args perform tests s = some s' ∧
      s'.runs = s.runs++tests.flatMap (runsOf args) ∧ Lines s.out s'.out := by
  induction tests generalizing s with
  | nil => exact ⟨s,rfl,(List.append_nil _).symm,.refl _⟩
  | cons t tests ih =>
    obtain ⟨s1,result,hrun,-,hruns1,hlines1⟩ := (run_test_result args perform (hroom t
      List.mem_cons_self)).1 (Or.inl hf)
    obtain ⟨s2,hprogram,hruns2,hlines2⟩ := ih (s := s1) fun u hu => by
      rw [hlines1.indentStack]
      exact hroom u (List.mem_cons_of_mem t hu)
    refine ⟨s2,by simp only [runProgram, hrun, Option.bind_some, hprogram],?_,hlines1.trans hlines2⟩
    rw [hruns2, hruns1, List.flatMap_cons, List.append_assoc]

end Runs

/-! A test is found by its name. -/

mutual

def preorder : Test → List Test
  | .suiteFunc test suite => .suiteFunc test suite::preorderOfSuite suite
  | t => [t]

def preorderOfSuite : List Test → List Test
  | [] => []
  | t::suite => preorder t++preorderOfSuite suite

end

mutual

/-- find_test gives the first test of that name. -/
theorem find_test_first (name : String) (t : Test) :
    findTest name t = (preorder t).find? fun t => decide (name = t.info.name) := by
  cases t with
  | suiteFunc test suite =>
    rw [findTest, preorder, List.find?_cons, find_in_suite_first name suite]
    by_cases h : name = test.name
    · simp [Test.info, h]
    · simp [Test.info, h]
  | _ => simp [findTest, preorder, List.find?_singleton]

theorem find_in_suite_first (name : String) (suite : List Test) : findInSuite name suite =
    (preorderOfSuite suite).find? fun t => decide (name = t.info.name) := by
  cases suite with
  | nil => rfl
  | cons t suite =>
    rw [findInSuite, preorderOfSuite, List.find?_append, find_test_first name t,
      find_in_suite_first name suite]
    cases (preorder t).find? fun t => decide (name = t.info.name) <;> rfl

end

end TinyOS.Testing.Runner
