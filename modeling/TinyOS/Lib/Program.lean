import TinyOS.Lib.Transition

/-! Sequential programs whose calls are steps of a system, between the steps of all others.
A program is outlined over its own view of the state, which the others leave alone. -/
namespace Sequential
open Transition

inductive Program (ι ρ δ : Type) where
  | ret (d : δ)
  /-- An assertion fails. -/
  | abort
  | call (i : ι) (k : ρ → Program ι ρ δ)

namespace Program
variable {ι ρ δ ε : Type}

def bind : Program ι ρ δ → (δ → Program ι ρ ε) → Program ι ρ ε
  | .ret d, f => f d
  | .abort, _ => .abort
  | .call i k, f => .call i fun r => (k r).bind f

instance : Monad (Program ι ρ) where
  pure := .ret
  bind := Program.bind

def perform (i : ι) : Program ι ρ ρ := .call i .ret

def assert (b : Bool) : Program ι ρ Unit := if b then .ret () else .abort

def loop (body : Nat → Program ι ρ Unit) : Nat → Nat → Program ι ρ Unit
  | _, 0 => .ret ()
  | i, n+1 => (body i).bind fun _ => loop body (i+1) n

end Program

/-- The system that a program calls: its calls are labels, and others take the other steps. -/
structure Client (σ α ι ρ : Type) where
  system : System σ α
  label : ι → α
  answer : σ → ι → ρ → Prop
  other : σ → α → Prop

inductive Client.Runs {σ α ι ρ δ : Type} (K : Client σ α ι ρ) :
    Program ι ρ δ → σ → List (σ × ι × ρ) → Program ι ρ δ → σ → Prop where
  | stop {c : Program ι ρ δ} {s : σ} : K.Runs c s [] c s
  | other {c c' : Program ι ρ δ} {s s' t : σ} {a : α} {h : List (σ × ι × ρ)}
      (ho : K.other s a) (hn : K.system.next s a = some s') (hr : K.Runs c s' h c' t) :
      K.Runs c s h c' t
  | call {k : ρ → Program ι ρ δ} {c' : Program ι ρ δ} {s s' t : σ} {i : ι} {r : ρ}
      {h : List (σ × ι × ρ)} (ha : K.answer s i r) (hn : K.system.next s (K.label i) = some s')
      (hr : K.Runs (k r) s' h c' t) : K.Runs (.call i k) s ((s,i,r)::h) c' t

section Outline
variable {ι ρ δ ε ℓ γ : Type} {sem : ℓ → ι → ρ → ℓ → Prop} {note : γ → ℓ → ι → ρ → γ}
  {I : γ → Prop} {Q : γ → ℓ → Option δ → Prop} {g : γ} {l : ℓ}

/-- With g noted of the calls so far and from the view l on: I holds of what is noted before
each other call, and Q at the end, which is none after a failed assertion. -/
def Outline (sem : ℓ → ι → ρ → ℓ → Prop) (note : γ → ℓ → ι → ρ → γ) (I : γ → Prop) :
    Program ι ρ δ → (γ → ℓ → Option δ → Prop) → γ → ℓ → Prop
  | .ret d, Q, g, l => Q g l (some d)
  | .abort, Q, g, l => Q g l none
  | .call i k, Q, g, l => I g ∧
    ∀ r l', sem l i r l' → Outline sem note I (k r) Q (note g l i r) l'

theorem Outline.mono {c : Program ι ρ δ} {R : γ → ℓ → Option δ → Prop}
    (hc : Outline sem note I c Q g l) (hQ : ∀ g l o, Q g l o → R g l o) :
    Outline sem note I c R g l := by
  induction c generalizing g l with
  | ret d => exact hQ _ _ _ hc
  | abort => exact hQ _ _ _ hc
  | call i k ih => exact ⟨hc.1,fun r l' hs => ih r (hc.2 r l' hs)⟩

theorem Outline.perform {i : ι} {k : ρ → Program ι ρ δ} (hI : I g)
    (hs : ∀ r l', sem l i r l' → Outline sem note I (k r) Q (note g l i r) l') :
    Outline sem note I (Program.perform i >>= k) Q g l := ⟨hI,hs⟩

theorem Outline.assert {b : Bool} {k : Unit → Program ι ρ δ} (hb : b = true)
    (hk : Outline sem note I (k ()) Q g l) :
    Outline sem note I (Program.assert b >>= k) Q g l := by
  rw [hb]
  exact hk

theorem Outline.assert_fails {b : Bool} {k : Unit → Program ι ρ δ} (hb : b = false)
    (hQ : Q g l none) : Outline sem note I (Program.assert b >>= k) Q g l := by
  rw [hb]
  exact hQ

/-- The rule of composition: a failed assertion ends both programs. -/
theorem Outline.bind {c : Program ι ρ δ} {f : δ → Program ι ρ ε}
    {R : γ → ℓ → Option ε → Prop} (hc : Outline sem note I c Q g l)
    (hd : ∀ g l d, Q g l (some d) → Outline sem note I (f d) R g l)
    (hn : ∀ g l, Q g l none → R g l none) : Outline sem note I (c >>= f) R g l := by
  induction c generalizing g l with
  | ret d => exact hd _ _ d hc
  | abort => exact hn _ _ hc
  | call i k ih => exact ⟨hc.1,fun r l' hs => ih r (hc.2 r l' hs)⟩

/-- The rule of the loop, by its invariant J. -/
theorem Outline.loop {body : Nat → Program ι ρ Unit} {J : Nat → γ → ℓ → Prop}
    {i n : Nat} (hb : ∀ j g l, j < i+n → J j g l →
      Outline sem note I (body j) (fun g l o => o = some () ∧ J (j+1) g l) g l)
    (hJ : J i g l) :
    Outline sem note I (Program.loop body i n) (fun g l o => o = some () ∧ J (i+n) g l) g l := by
  induction n generalizing i g l with
  | zero => exact ⟨rfl,hJ⟩
  | succ n ih =>
    refine Outline.bind (hb i g l (by omega) hJ) ?_ fun _ _ hQ => by cases hQ.1
    rintro g l _ ⟨-,hJ⟩
    have hrest := ih (i := i+1) (fun j g l hj => hb j g l (by omega)) hJ
    rwa [Nat.add_right_comm] at hrest

theorem Outline.now {c : Program ι ρ δ} (hc : Outline sem note I c Q g l)
    (hQ : ∀ g l o, Q g l o → I g) :
    I g ∧ (∀ d, c = .ret d → Q g l (some d)) ∧ (c = .abort → Q g l none) := by
  cases c with
  | ret d =>
    refine ⟨hQ _ _ _ hc,fun _ he => ?_,fun he => by cases he⟩
    cases he
    exact hc
  | abort => exact ⟨hQ _ _ _ hc,(fun _ he => by cases he),fun _ => hc⟩
  | call i k => exact ⟨hc.1,(fun _ he => by cases he),fun he => by cases he⟩

end Outline

namespace Client
variable {σ α ι ρ δ ℓ γ : Type} {K : Client σ α ι ρ} {view : σ → ℓ}

def noted (view : σ → ℓ) (note : γ → ℓ → ι → ρ → γ) (h : List (σ × ι × ρ)) (g : γ) : γ :=
  h.foldl (fun g e => note g (view e.1) e.2.1 e.2.2) g

/-- Where the others leave the view alone and each call does what sem says, an outline holds
of every run. -/
theorem Runs.outline {P : σ → Prop} {sem : ℓ → ι → ρ → ℓ → Prop} {note : γ → ℓ → ι → ρ → γ}
    {I : γ → Prop} {Q : γ → ℓ → Option δ → Prop}
    (hother : ∀ s a s', P s → K.other s a → K.system.next s a = some s' →
      P s' ∧ view s' = view s)
    (hcall : ∀ s i r s', P s → K.answer s i r → K.system.next s (K.label i) = some s' →
      P s' ∧ sem (view s) i r (view s'))
    {c c' : Program ι ρ δ} {s t : σ} {h : List (σ × ι × ρ)} (hr : K.Runs c s h c' t) (hP : P s)
    {g : γ} (hc : Outline sem note I c Q g (view s)) :
    P t ∧ Outline sem note I c' Q (noted view note h g) (view t) := by
  induction hr generalizing g with
  | stop => exact ⟨hP,hc⟩
  | other ho hn _ ih =>
    obtain ⟨hP',hv⟩ := hother _ _ _ hP ho hn
    exact ih hP' (hv ▸ hc)
  | call ha hn _ ih =>
    obtain ⟨hP',hs⟩ := hcall _ _ _ _ hP ha hn
    exact ih hP' (hc.2 _ _ hs)

theorem Runs.calls {P : σ → Prop}
    (hother : ∀ s a s', P s → K.other s a → K.system.next s a = some s' → P s')
    (hcall : ∀ s i r s', P s → K.answer s i r → K.system.next s (K.label i) = some s' → P s')
    {c c' : Program ι ρ δ} {s t : σ} {h : List (σ × ι × ρ)} (hr : K.Runs c s h c' t) (hP : P s) :
    ∀ e∈h, P e.1 ∧ K.answer e.1 e.2.1 e.2.2 ∧ ∃ s', K.system.next e.1 (K.label e.2.1) = some s' := by
  induction hr with
  | stop =>
    intro e he
    cases he
  | other ho hn _ ih => exact ih (hother _ _ _ hP ho hn)
  | call ha hn _ ih =>
    intro e he
    rcases List.mem_cons.mp he with rfl|he
    · exact ⟨hP,ha,_,hn⟩
    · exact ih (hcall _ _ _ _ hP ha hn) e he

end Client
end Sequential
