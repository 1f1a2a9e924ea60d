import Mathlib.Data.Int.Basic
import Mathlib.Data.List.TakeWhile

/-! strtok and strtol of the C library, on the bytes of a string. What strtok finds are the
non-empty fields between separators, and what strtol reads to the end is decimal notation. -/
namespace Strings

def fields (sep : UInt8) (s : List UInt8) : List (List UInt8) := (s.splitOn sep).filter (!·.isEmpty)

def strtok (sep : UInt8) (s : List UInt8) : Option (List UInt8 × List UInt8) :=
  match s.dropWhile (· == sep) with
  | [] => none
  | b::s => some ((b::s).takeWhile (· != sep),((b::s).dropWhile (· != sep)).tail)

/-- for(token=strtok(s,sep); token!=NULL; token=strtok(NULL,sep)) -/
def tokens (sep : UInt8) : Nat → List UInt8 → List (List UInt8)
  | 0, _ => []
  | fuel+1, s =>
    match strtok sep s with
    | none => []
    | some (token,s) => token::tokens sep fuel s

theorem forall_splits_cons {α : Type*} {p : List α → α → Prop} {a : α} {l : List α} :
    (∀ pre b post, a::l = pre++b::post → p pre b) ↔
    p [] a ∧ ∀ pre b post, l = pre++b::post → p (a::pre) b := by
  constructor
  · intro h
    exact ⟨h [] a l rfl,fun pre b post he => h (a::pre) b post (by rw [he]; rfl)⟩
  · rintro ⟨h0,h⟩ pre b post he
    cases pre with
    | nil =>
      obtain ⟨rfl,-⟩ := List.cons.inj he
      exact h0
    | cons _ pre =>
      obtain ⟨rfl,hrest⟩ := List.cons.inj he
      exact h pre b post hrest

section
variable {sep : UInt8}

theorem fields_sep (sep : UInt8) (s : List UInt8) : fields sep (sep::s) = fields sep s := by
  simp [fields, List.splitOn_cons_eq_if_modifyHead]

theorem fields_dropWhile (sep : UInt8) (s : List UInt8) :
    fields sep (s.dropWhile (· == sep)) = fields sep s := by
  induction s with
  | nil => rfl
  | cons b s ih =>
    by_cases hb : b = sep
    · subst hb
      rw [List.dropWhile_cons_of_pos (by simp), ih, fields_sep]
    · rw [List.dropWhile_cons_of_neg (by simpa using hb)]

theorem fields_token {t s : List UInt8} (ht : sep∉t) (hne : t≠[]) :
    fields sep t = [t] ∧ fields sep (t++sep::s) = t::fields sep s := by
  have hempty : t.isEmpty = false := by simpa using hne
  constructor
  · rw [fields, List.splitOn_eq_singleton ht]
    simp [hempty]
  · rw [fields, List.splitOn_append_cons_self_of_not_mem ht, List.filter_cons, hempty]
    rfl

theorem strtok_fields (sep : UInt8) (s : List UInt8) :
    (strtok sep s = none ∧ fields sep s = []) ∨
    ∃ token s', strtok sep s = some (token,s') ∧ fields sep s = token::fields sep s' ∧
      s'.length < s.length := by
  have hfields := fields_dropWhile sep s
  have hlen := (List.dropWhile_sublist (l := s) (· == sep)).length_le
  cases hs : s.dropWhile (· == sep) with
  | nil =>
    rw [hs] at hfields
    exact .inl ⟨by simp [strtok, hs],hfields.symm⟩
  | cons b s1 =>
    have hb : b≠sep := by
      have hhead := List.head?_dropWhile_not (· == sep) s
      simpa [hs] using hhead
    have hsplit := List.takeWhile_append_dropWhile (p := (· != sep)) (l := b::s1)
    have hmem : sep∉(b::s1).takeWhile (· != sep) := fun hm => by
      simpa using List.mem_takeWhile_imp hm
    have hne : (b::s1).takeWhile (· != sep)≠[] := by simp [hb]
    have hpos := List.length_pos_iff.mpr hne
    have hsum := congrArg List.length hsplit
    rw [List.length_append] at hsum
    rw [hs] at hfields hlen
    refine .inr ⟨_,_,by rw [strtok, hs],?_,?_⟩
    · rw [← hfields]
      cases hrest : (b::s1).dropWhile (· != sep) with
      | nil =>
        rw [hrest, List.append_nil] at hsplit
        rw [hsplit]
        rw [hsplit] at hmem
        exact (fields_token (s := []) hmem nofun).1
      | cons c s2 =>
        have hc : c = sep := by
          have hhead := List.head?_dropWhile_not (· != sep) (b::s1)
          simpa [hrest] using hhead
        rw [hrest, hc] at hsplit
        conv_lhs => rw [← hsplit]
        exact (fields_token hmem hne).2
    · rw [List.length_tail]
      omega

theorem tokens_eq {s : List UInt8} {fuel : Nat} (hf : s.length < fuel) :
    tokens sep fuel s = fields sep s := by
  induction fuel generalizing s with
  | zero => cases hf
  | succ fuel ih =>
    cases strtok_fields sep s with
    | inl h =>
      obtain ⟨hnone,hnil⟩ := h
      rw [tokens, hnone, hnil]
    | inr h =>
      obtain ⟨token,s',hsome,hcons,hlt⟩ := h
      rw [tokens, hsome, hcons]
      show token::tokens sep fuel s' = _
      rw [ih (by omega)]

end

/-! Numbers -/

def isspace (b : UInt8) : Bool := b == 32 || (9 ≤ b.toNat && b.toNat ≤ 13)

def isdigit (b : UInt8) : Bool := 48 ≤ b.toNat && b.toNat ≤ 57

def digitsValue (u : List UInt8) : Nat := u.foldl (fun n b => 10*n+(b.toNat-48)) 0

/-- A value out of the range of long is replaced by the end of the range. -/
def toLong (x : Int) : Int := max (-9223372036854775808) (min x 9223372036854775807)

def sign : List UInt8 → Bool × List UInt8
  | [] => (false,[])
  | b::s => if b = 45 then (true,s) else if b = 43 then (false,s) else (false,b::s)

/-- strtol(s, &endptr, 10), and what is behind endptr. -/
def strtol (s : List UInt8) : Int × List UInt8 :=
  let (minus,u) := sign (s.dropWhile isspace)
  let digits := u.takeWhile isdigit
  if digits = [] then (0,s)
  else (toLong (if minus then -digitsValue digits else digitsValue digits),u.dropWhile isdigit)

def IsDecimal (s : List UInt8) (v : Int) : Prop :=
  ∃ u, u≠[] ∧ (∀ b∈u, isdigit b = true) ∧
    ((s = u ∨ s = 43::u) ∧ v = digitsValue u ∨ s = 45::u ∧ v = -digitsValue u)

section
variable {s u : List UInt8} {v : Int}

theorem not_isspace {b : UInt8} (hb : isdigit b = true ∨ b = 43 ∨ b = 45) :
    isspace b = false := by
  have hnat : 48 ≤ b.toNat ∨ b.toNat = 43 ∨ b.toNat = 45 := by
    rcases hb with hb | rfl | rfl
    · simp only [isdigit, Bool.and_eq_true, decide_eq_true_eq] at hb
      exact .inl hb.1
    · exact .inr (.inl rfl)
    · exact .inr (.inr rfl)
  have h32 : b≠32 := by
    rintro rfl
    simp at hnat
  have h13 : ¬b.toNat ≤ 13 := by omega
  simp [isspace, h32, h13]

theorem sign_digits (hu : u≠[]) (hd : ∀ b∈u, isdigit b = true) : sign u = (false,u) := by
  cases u with
  | nil => exact absurd rfl hu
  | cons b u =>
    have hb := hd b List.mem_cons_self
    have h45 : b≠45 := by
      rintro rfl
      simp [isdigit] at hb
    have h43 : b≠43 := by
      rintro rfl
      simp [isdigit] at hb
    simp [sign, h45, h43]

theorem dropWhile_of_head {p : UInt8 → Bool} (hs : ∀ b, s.head? = some b → p b = false) :
    s.dropWhile p = s := by
  cases s with
  | nil => rfl
  | cons b s => rw [List.dropWhile_cons_of_neg (by simp [hs b rfl])]

theorem IsDecimal.head (h : IsDecimal s v) : ∀ b, s.head? = some b → isspace b = false := by
  obtain ⟨u,hu,hd,hs⟩ := h
  intro b hb
  apply not_isspace
  rcases hs with ⟨rfl | rfl,-⟩ | ⟨rfl,-⟩
  · exact .inl (hd b (List.mem_of_mem_head? hb))
  · simp only [List.head?_cons, Option.some.injEq] at hb
    exact .inr (.inl hb.symm)
  · simp only [List.head?_cons, Option.some.injEq] at hb
    exact .inr (.inr hb.symm)

theorem isDecimal_iff :
    IsDecimal s v ↔ (sign s).2≠[] ∧ (∀ b∈(sign s).2, isdigit b = true) ∧
      v = if (sign s).1 then -(digitsValue (sign s).2 : Int) else digitsValue (sign s).2 := by
  constructor
  · rintro ⟨u,hu,hd,⟨rfl | rfl,rfl⟩ | ⟨rfl,rfl⟩⟩
    · rw [sign_digits hu hd]
      exact ⟨hu,hd,rfl⟩
    · exact ⟨hu,hd,rfl⟩
    · exact ⟨hu,hd,rfl⟩
  · rintro ⟨hu,hd,hv⟩
    refine ⟨(sign s).2,hu,hd,?_⟩
    cases s with
    | nil => exact absurd rfl hu
    | cons b s =>
      by_cases h45 : b = 45
      · subst h45
        exact .inr ⟨rfl,hv⟩
      · by_cases h43 : b = 43
        · subst h43
          exact .inl ⟨.inr rfl,hv⟩
        · have hsign : sign (b::s) = (false,b::s) := by simp [sign, h45, h43]
          rw [hsign] at hv ⊢
          exact .inl ⟨.inl rfl,hv⟩

theorem strtol_eq (s : List UInt8) (hs : ∀ b, s.head? = some b → isspace b = false) :
    strtol s = if (sign s).2.takeWhile isdigit = [] then (0,s)
      else (toLong (if (sign s).1 then -digitsValue ((sign s).2.takeWhile isdigit)
        else digitsValue ((sign s).2.takeWhile isdigit)),(sign s).2.dropWhile isdigit) := by
  rw [strtol, dropWhile_of_head hs]

theorem IsDecimal.unique {v' : Int} (h : IsDecimal s v) (h' : IsDecimal s v') : v = v' :=
  (isDecimal_iff.mp h).2.2.trans (isDecimal_iff.mp h').2.2.symm

theorem IsDecimal.ne_nil (h : IsDecimal s v) : s≠[] := by
  rintro rfl
  exact (isDecimal_iff.mp h).1 rfl

theorem IsDecimal.strtol (h : IsDecimal s v) : strtol s = (toLong v,[]) := by
  obtain ⟨hne,hd,hv⟩ := isDecimal_iff.mp h
  have htake : (sign s).2.takeWhile isdigit = (sign s).2 := List.takeWhile_eq_self_iff.mpr hd
  have hdrop : (sign s).2.dropWhile isdigit = [] := List.dropWhile_eq_nil_iff.mpr hd
  rw [strtol_eq s h.head, htake, if_neg hne, hdrop, ← hv]

theorem decimal_of_strtol (hs : ∀ b, s.head? = some b → isspace b = false)
    (hne : (strtol s).2≠s) (hnil : (strtol s).2 = []) :
    ∃ v, IsDecimal s v ∧ (strtol s).1 = toLong v := by
  rw [strtol_eq s hs] at hne hnil ⊢
  by_cases hd : (sign s).2.takeWhile isdigit = []
  · rw [if_pos hd] at hne
    exact absurd rfl hne
  · rw [if_neg hd] at hnil ⊢
    have hall : (sign s).2.takeWhile isdigit = (sign s).2 := by
      have happ := List.takeWhile_append_dropWhile (p := isdigit) (l := (sign s).2)
      have hdrop : (sign s).2.dropWhile isdigit = [] := hnil
      rwa [hdrop, List.append_nil] at happ
    rw [hall] at hd ⊢
    refine ⟨_,isDecimal_iff.mpr ⟨hd,fun b hb => ?_,rfl⟩,rfl⟩
    rw [← hall] at hb
    exact List.mem_takeWhile_imp hb

end
end Strings
