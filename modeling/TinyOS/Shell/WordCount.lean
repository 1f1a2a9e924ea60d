import TinyOS.Lib.Strings

/-! The loop of WordCount: an automaton over the bytes of standard input, with the bytes
read through a char. -/
namespace TinyOS.Shell

def EOF : Int := -1

/-- Conversion to char, which is a signed byte. -/
def toChar (x : Int) : Int := x.bmod 256

def isblank (c : Int) : Bool := c == 32 || c == 9

def newline : UInt8 := 10

structure Counts where
  nchar : Nat
  nword : Nat
  nline : Nat
  wspace : Bool
  deriving DecidableEq

def Counts.count (s : Counts) (c : Int) : Counts :=
  let s := { s with nchar := s.nchar+1 }
  let s := if s.wspace && !isblank c then { s with wspace := false, nword := s.nword+1 } else s
  let s := if c = 10 then { s with nline := s.nline+1, wspace := true } else s
  if isblank c then { s with wspace := true } else s

/-- while((c=fgetc(fin))!=EOF): what is left of the input, and the counts. At the end of the
input fgetc gives EOF, which the conversion to char keeps. -/
def wordCountLoop : List UInt8 → Counts → List UInt8 × Counts
  | [], s => ([],s)
  | b::fin, s =>
    let c := toChar b.toNat
    if c≠EOF then wordCountLoop fin (s.count c) else (fin,s)

def wordCount (fin : List UInt8) : List UInt8 × Counts := wordCountLoop fin ⟨0,0,0,true⟩

/-! What is to be counted. -/

def isSeparator (b : UInt8) : Bool := b == 32 || b == 9 || b == newline

def words (l : List UInt8) : Nat := ((l.splitOnP isSeparator).filter (!·.isEmpty)).length

def wordsFrom : Bool → List UInt8 → Nat
  | _, [] => 0
  | w, b::l => (if w && !isSeparator b then 1 else 0)+wordsFrom (isSeparator b) l

def emptyLines : Bool → List UInt8 → Nat
  | _, [] => 0
  | w, b::l => (if w && b == newline then 1 else 0)+emptyLines (isSeparator b) l

theorem words_pieces (l : List UInt8) :
    words l = wordsFrom true l ∧
      ((l.splitOnP isSeparator).tail.filter (!·.isEmpty)).length = wordsFrom false l := by
  induction l with
  | nil => simp [words, wordsFrom]
  | cons b l ih =>
    obtain ⟨ih1,ih2⟩ := ih
    obtain ⟨x,xs,hx⟩ := List.exists_cons_of_ne_nil (List.splitOnP_ne_nil isSeparator l)
    rw [words, List.splitOnP_cons_eq_if_modifyHead, hx]
    rw [words, hx] at ih1
    rw [hx, List.tail_cons] at ih2
    cases hb : isSeparator b with
    | true => simp [wordsFrom, hb, ← ih1]
    | false => simp [wordsFrom, hb, ih2, Nat.add_comm]

theorem toChar_byte (b : UInt8) :
    toChar b.toNat = if b.toNat < 128 then (b.toNat : Int) else b.toNat-256 := by
  have hb : b.toNat < 256 := b.toNat_lt
  rw [toChar, Int.bmod_def]
  split <;> split <;> omega

theorem toChar_EOF_iff (b : UInt8) : toChar b.toNat = EOF ↔ b = 255 := by
  have hb : b.toNat < 256 := b.toNat_lt
  rw [toChar_byte, EOF, ← UInt8.toNat_inj]
  show _ ↔ b.toNat = 255
  split <;> omega

theorem toChar_eq_iff {b x : UInt8} (hx : x.toNat < 128) : toChar b.toNat = x.toNat ↔ b = x := by
  have hb : b.toNat < 256 := b.toNat_lt
  rw [toChar_byte, ← UInt8.toNat_inj]
  split <;> omega

theorem isblank_byte (b : UInt8) : isblank (toChar b.toNat) = (b == 32 || b == 9) := by
  have h32 := toChar_eq_iff (b := b) (x := 32) (by decide)
  have h9 := toChar_eq_iff (b := b) (x := 9) (by decide)
  rw [Bool.eq_iff_iff]
  simp only [isblank, Bool.or_eq_true, beq_iff_eq]
  exact or_congr h32 h9

theorem count_byte (s : Counts) (b : UInt8) :
    s.count (toChar b.toNat) = ⟨s.nchar+1,
      s.nword+((if s.wspace && !isSeparator b then 1 else 0)+
        if s.wspace && b == newline then 1 else 0),
      s.nline+(if b == newline then 1 else 0),isSeparator b⟩ := by
  have hn : toChar b.toNat = 10 ↔ b = newline := toChar_eq_iff (x := newline) (by decide)
  have hsep : isSeparator b = (isblank (toChar b.toNat) || b == newline) := by
    rw [isblank_byte]
    rfl
  by_cases hb : b = newline
  · have h10 : toChar b.toNat = 10 := hn.mpr hb
    have hblank : isblank 10 = false := rfl
    have hline : (b == newline) = true := by simpa using hb
    rw [hsep, h10]
    cases hw : s.wspace with
    | false => simp [Counts.count, hblank, hw, hline]
    | true => simp [Counts.count, hblank, hw, hline]
  · have h10 : toChar b.toNat≠10 := fun he => hb (hn.mp he)
    by_cases hblank : isblank (toChar b.toNat) = true
    · simp [Counts.count, hsep, hblank, h10, hb]
    · cases hw : s.wspace with
      | false => simp [Counts.count, hsep, hblank, h10, hw, hb]
      | true => simp [Counts.count, hsep, hblank, h10, hw, hb]

theorem getLast_getD_cons (p : UInt8 → Bool) (b : UInt8) (l : List UInt8) (w : Bool) :
    ((b::l).getLast?.map p).getD w = (l.getLast?.map p).getD (p b) := by
  cases l with
  | nil => rfl
  | cons c l => simp [List.getLast?_cons]

theorem wordCountLoop_eq {l : List UInt8} (hl : 255∉l) (s : Counts) :
    wordCountLoop l s = ([],⟨s.nchar+l.length,
      s.nword+(wordsFrom s.wspace l+emptyLines s.wspace l),s.nline+l.count newline,
      (l.getLast?.map isSeparator).getD s.wspace⟩) := by
  induction l generalizing s with
  | nil => simp [wordCountLoop, wordsFrom, emptyLines]
  | cons b l ih =>
    have hb : b≠255 := fun he => hl (he ▸ List.mem_cons_self)
    have hc : toChar b.toNat≠EOF := fun he => hb ((toChar_EOF_iff b).mp he)
    simp only [wordCountLoop, ne_eq, hc, not_false_eq_true, if_true, count_byte]
    rw [ih fun hm => hl (List.mem_cons_of_mem b hm)]
    simp only [wordsFrom, emptyLines, List.length_cons, List.count_cons, Prod.mk.injEq,
      Counts.mk.injEq, true_and, getLast_getD_cons, and_true]
    exact ⟨by omega,by omega,by omega⟩

theorem wordCountLoop_short {l : List UInt8} (hl : 255∈l) (s : Counts) :
    (wordCountLoop l s).2.nchar < s.nchar+l.length := by
  induction l generalizing s with
  | nil => cases hl
  | cons b l ih =>
    by_cases hb : b = 255
    · simp [wordCountLoop, (toChar_EOF_iff b).mpr hb]
    · have hc : toChar b.toNat≠EOF := fun he => hb ((toChar_EOF_iff b).mp he)
      have hm : 255∈l := (List.mem_cons.mp hl).resolve_left (Ne.symm hb)
      have hnext := ih hm (s.count (toChar b.toNat))
      have hchar : (s.count (toChar b.toNat)).nchar = s.nchar+1 := by rw [count_byte]
      simp only [wordCountLoop, ne_eq, hc, not_false_eq_true, if_true, List.length_cons]
      omega

theorem emptyLines_eq_zero_iff (w : Bool) (l : List UInt8) :
    emptyLines w l = 0 ↔ ∀ pre b post, l = pre++b::post → b = newline →
      (pre.getLast?.map isSeparator).getD w = false := by
  induction l generalizing w with
  | nil => simp [emptyLines]
  | cons b l ih =>
    rw [Strings.forall_splits_cons, emptyLines, Nat.add_eq_zero_iff, ih]
    simp only [getLast_getD_cons]
    refine and_congr_left' ?_
    cases w with
    | false => simp
    | true => simp

/-- WordCount counts correctly exactly the inputs without the byte 255 in which no newline
stands at the beginning or behind a separator. -/
theorem wordCount_iff (input : List UInt8) :
    ((wordCount input).1 = [] ∧ (wordCount input).2.nchar = input.length ∧
      (wordCount input).2.nline = input.count newline ∧
      (wordCount input).2.nword = words input) ↔
    255∉input ∧ ∀ pre post, input = pre++newline::post →
      ∃ b, pre.getLast? = some b ∧ isSeparator b = false := by
  have hempty : emptyLines true input = 0 ↔ ∀ pre post, input = pre++newline::post →
      ∃ b, pre.getLast? = some b ∧ isSeparator b = false := by
    rw [emptyLines_eq_zero_iff]
    have hlast : ∀ pre : List UInt8, (pre.getLast?.map isSeparator).getD true = false ↔
        ∃ b, pre.getLast? = some b ∧ isSeparator b = false := by
      intro pre
      cases pre.getLast? with
      | none => simp
      | some b => simp
    simp only [hlast]
    constructor
    · intro h pre post he
      exact h pre newline post he rfl
    · rintro h pre b post he rfl
      exact h pre post he
  by_cases hl : 255∈input
  · have hshort := wordCountLoop_short hl ⟨0,0,0,true⟩
    refine ⟨fun h => ?_,fun h => absurd hl h.1⟩
    have hlen : (wordCountLoop input ⟨0,0,0,true⟩).2.nchar = input.length := h.2.1
    simp only [Nat.zero_add] at hshort
    omega
  · rw [← hempty, wordCount, wordCountLoop_eq hl, (words_pieces input).1]
    simp [hl]

/-- A newline alone is one word. -/
theorem wordCount_newline : (wordCount [newline]).2.nword = 1 ∧ words [newline] = 0 :=
  ⟨by decide,rfl⟩

end TinyOS.Shell
